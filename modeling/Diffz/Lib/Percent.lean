import Diffz.Lib.Text

/-!
# Percent-encoding

Bytes written as URL text, and read back. Unreserved bytes and the slash stand for themselves; any
other byte is a percent sign and two hexadecimal digits. The reader takes the two digits as
`u8::from_str_radix` does, which lets a plus sign stand for the first one.
-/

set_option autoImplicit false

namespace Diffz
namespace Percent

/-- `A-Z`, `a-z`, `0-9`, `-`, `.`, `_`, `~` and `/`. -/
def unreserved (b : UInt8) : Bool :=
  (48 ≤ b && b ≤ 57) || (65 ≤ b && b ≤ 90) || (97 ≤ b && b ≤ 122) ||
    b ∈ [(45 : UInt8), 46, 95, 126, 47]

/-- A digit of the table `0123456789ABCDEF`. -/
def upperHex (n : UInt8) : UInt8 := if n < 10 then 48 + n else 55 + n

def encodeByte (b : UInt8) : Bytes :=
  if unreserved b then [b] else [37, upperHex (b / 16), upperHex (b % 16)]

def encode (bytes : Bytes) : Bytes := bytes.flatMap encodeByte

/-- `char::to_digit(16)`. -/
def hexValue (b : UInt8) : Option UInt8 :=
  if 48 ≤ b ∧ b ≤ 57 then some (b - 48)
  else if 65 ≤ b ∧ b ≤ 70 then some (b - 55)
  else if 97 ≤ b ∧ b ≤ 102 then some (b - 87)
  else none

/-- `u8::from_str_radix` on two bytes. -/
def pairValue (a b : UInt8) : Option UInt8 :=
  if a = 43 then hexValue b
  else (hexValue a).bind fun x => (hexValue b).map fun y => 16 * x + y

def decode : Bytes → Option Bytes
  | [] => some []
  | c :: rest =>
    if c = 37 then
      match rest with
      | a :: b :: rest => (pairValue a b).bind fun x => (decode rest).map (x :: ·)
      | _ => none
    else (decode rest).map (c :: ·)

theorem encode_append (a b : Bytes) : encode (a ++ b) = encode a ++ encode b :=
  List.flatMap_append

theorem unreserved_ne {b : UInt8} (h : unreserved b) : b ≠ 37 := by
  rintro rfl
  exact absurd h (by decide)

theorem pairValue_upperHex (b : UInt8) :
    pairValue (upperHex (b / 16)) (upperHex (b % 16)) = some b := by
  have hall : ∀ n : Fin 256, pairValue (upperHex (.ofNat n / 16)) (upperHex (.ofNat n % 16)) =
      some (.ofNat n) := by decide +kernel
  simpa using hall ⟨b.toNat, b.toNat_lt⟩

theorem decode_cons_of_ne {c : UInt8} (h : c ≠ 37) (rest : Bytes) :
    decode (c :: rest) = (decode rest).map (c :: ·) := by
  rw [decode.eq_def]
  simp only [if_neg h]

theorem decode_percent (a b : UInt8) (rest : Bytes) :
    decode (37 :: a :: b :: rest) = (pairValue a b).bind fun x => (decode rest).map (x :: ·) := by
  rw [decode.eq_def]
  rfl

theorem decode_encodeByte (b : UInt8) (rest : Bytes) :
    decode (encodeByte b ++ rest) = (decode rest).map (b :: ·) := by
  unfold encodeByte
  split
  · rename_i h
    exact decode_cons_of_ne (unreserved_ne h) rest
  · rw [List.cons_append, List.cons_append, List.cons_append, List.nil_append, decode_percent,
      pairValue_upperHex]
    rfl

/-- **What is encoded is read back.** -/
theorem decode_encode (bytes : Bytes) : decode (encode bytes) = some bytes := by
  induction bytes with
  | nil => rfl
  | cons b bytes ih =>
    rw [encode, List.flatMap_cons, decode_encodeByte, ← encode, ih]
    rfl

end Percent
end Diffz
