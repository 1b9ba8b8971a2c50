import Mathlib.Data.Nat.Digits.Defs
import Mathlib.Tactic.Ring
import Diffz.Lib.Text

/-!
# Base64url without padding

Bytes are written in sextets, three bytes in four, and one or two left over in two or three, filled
up with zero bits. `numeral` reads digits with the most significant first. A byte string and its
sextets are one numeral up to the filling (`numeral_sextets`), which with its length is all that
a digit string has (`numeral_inj`).
-/

set_option autoImplicit false

namespace Diffz
namespace Base64

/-! ## Numerals -/

/-- The value of a string of digits, the most significant one first. -/
def numeral (base : Nat) (ds : List Nat) : Nat := Nat.ofDigits base ds.reverse

variable {base : Nat}

@[simp] theorem numeral_nil : numeral base [] = 0 := rfl

theorem numeral_concat (ds : List Nat) (d : Nat) :
    numeral base (ds ++ [d]) = numeral base ds * base + d := by
  unfold numeral
  rw [List.reverse_append, List.reverse_singleton, List.singleton_append, Nat.ofDigits_cons]
  ring

theorem numeral_append (ds es : List Nat) :
    numeral base (ds ++ es) = numeral base ds * base ^ es.length + numeral base es := by
  unfold numeral
  rw [List.reverse_append, Nat.ofDigits_append, List.length_reverse]
  ring

/-- Digit strings of one length and one value are the same. -/
theorem numeral_inj (hb : 1 < base) {ds es : List Nat} (hlen : ds.length = es.length)
    (hd : ∀ d ∈ ds, d < base) (he : ∀ e ∈ es, e < base) (h : numeral base ds = numeral base es) :
    ds = es := by
  have hrev := Nat.ofDigits_inj_of_len_eq hb (by simpa using hlen) (by simpa using hd)
    (by simpa using he) h
  exact List.reverse_injective hrev

/-- The value of a byte string. -/
def bytesValue (b : Bytes) : Nat := numeral 256 (b.map UInt8.toNat)

theorem bytesValue_concat (b : Bytes) (c : UInt8) :
    bytesValue (b ++ [c]) = bytesValue b * 256 + c.toNat := by
  unfold bytesValue
  rw [List.map_append, List.map_singleton, numeral_concat]

theorem bytesValue_inj {a b : Bytes} (hlen : a.length = b.length)
    (h : bytesValue a = bytesValue b) : a = b := by
  have hlt : ∀ l : Bytes, ∀ d ∈ l.map UInt8.toNat, d < 256 := by
    intro l d hd
    obtain ⟨c, -, rfl⟩ := List.mem_map.mp hd
    exact c.toNat_lt
  have hmap := numeral_inj (by decide) (by simpa using hlen) (hlt a) (hlt b) h
  exact List.map_injective_iff.mpr (fun _ _ => UInt8.toNat_inj.mp) hmap

/-! ## Sextets -/

/-- The sextets of a byte string, the last one filled up with zero bits. -/
def sextets : Bytes → List Nat
  | [] => []
  | [a] => [a.toNat / 4, a.toNat % 4 * 16]
  | [a, b] => [a.toNat / 4, a.toNat % 4 * 16 + b.toNat / 16, b.toNat % 16 * 4]
  | a :: b :: c :: rest =>
    a.toNat / 4 :: (a.toNat % 4 * 16 + b.toNat / 16) :: (b.toNat % 16 * 4 + c.toNat / 64) ::
      (c.toNat % 64) :: sextets rest

theorem sextets_lt (b : Bytes) : ∀ d ∈ sextets b, d < 64 := by
  fun_induction sextets b with
  | case1 => exact fun d hd => nomatch hd
  | case2 a =>
    have ha := a.toNat_lt
    simp only [List.forall_mem_cons, List.not_mem_nil, false_imp_iff, implies_true, and_true]
    omega
  | case3 a b =>
    have ha := a.toNat_lt
    have hb := b.toNat_lt
    simp only [List.forall_mem_cons, List.not_mem_nil, false_imp_iff, implies_true, and_true]
    omega
  | case4 a b c rest ih =>
    have ha := a.toNat_lt
    have hb := b.toNat_lt
    have hc := c.toNat_lt
    simp only [List.forall_mem_cons]
    exact ⟨by omega, by omega, by omega, by omega, ih⟩

/-- How many bits the last sextet is filled up with. -/
def filling (n : Nat) : Nat := 4 * n % 6

theorem sextets_length (b : Bytes) : 6 * (sextets b).length = 8 * b.length + filling b.length := by
  fun_induction sextets b with
  | case1 => rfl
  | case2 => simp [filling]
  | case3 => simp [filling]
  | case4 a b c rest ih =>
    simp only [List.length_cons, filling] at ih ⊢
    omega

theorem numeral_sextets (b : Bytes) :
    numeral 64 (sextets b) = bytesValue b * 2 ^ filling b.length := by
  fun_induction sextets b with
  | case1 => rfl
  | case2 a =>
    have hfill : 2 ^ filling [a].length = 16 := by simp [filling]
    simp only [hfill, numeral, bytesValue, List.reverse_cons, List.reverse_nil, List.nil_append,
      List.cons_append, List.map_cons, List.map_nil, Nat.ofDigits_cons, Nat.ofDigits_nil]
    omega
  | case3 a b =>
    have hfill : 2 ^ filling [a, b].length = 4 := by simp [filling]
    simp only [hfill, numeral, bytesValue, List.reverse_cons, List.reverse_nil, List.nil_append,
      List.cons_append, List.map_cons, List.map_nil, Nat.ofDigits_cons, Nat.ofDigits_nil]
    omega
  | case4 a b c rest ih =>
    have hlen := sextets_length rest
    have hfill : filling (a :: b :: c :: rest).length = filling rest.length := by
      simp only [filling, List.length_cons]
      omega
    have hpow : 64 ^ (sextets rest).length = 256 ^ rest.length * 2 ^ filling rest.length := by
      rw [show 64 = 2 ^ 6 from rfl, show 256 = 2 ^ 8 from rfl, ← pow_mul, ← pow_mul, hlen, pow_add]
    have hgroup : numeral 64 [a.toNat / 4, a.toNat % 4 * 16 + b.toNat / 16,
        b.toNat % 16 * 4 + c.toNat / 64, c.toNat % 64] = bytesValue [a, b, c] := by
      simp only [numeral, bytesValue, List.reverse_cons, List.reverse_nil, List.nil_append,
        List.cons_append, List.map_cons, List.map_nil, Nat.ofDigits_cons, Nat.ofDigits_nil]
      omega
    have hcut : bytesValue (a :: b :: c :: rest) =
        bytesValue [a, b, c] * 256 ^ rest.length + bytesValue rest := by
      have happ : numeral 256 ([a, b, c].map UInt8.toNat ++ rest.map UInt8.toNat) = _ :=
        numeral_append _ _
      rw [List.length_map] at happ
      exact happ
    calc numeral 64 (_ :: _ :: _ :: _ :: sextets rest)
      _ = bytesValue [a, b, c] * 64 ^ (sextets rest).length + numeral 64 (sextets rest) := by
        rw [← hgroup]
        exact numeral_append [_, _, _, _] (sextets rest)
      _ = bytesValue (a :: b :: c :: rest) * 2 ^ filling (a :: b :: c :: rest).length := by
        rw [hpow, ih, hfill, hcut]
        ring

/-! ## Letters -/

/-- The letter of a sextet. -/
def letter (d : Nat) : Char :=
  if d < 26 then Char.ofNat (65 + d)
  else if d < 52 then Char.ofNat (97 + (d - 26))
  else if d < 62 then Char.ofNat (48 + (d - 52))
  else if d = 62 then '-'
  else '_'

/-- A byte string in base64url, without padding. -/
def base64url (b : Bytes) : String := String.ofList ((sextets b).map letter)

/-- The byte of a letter. -/
def letterByte (d : Nat) : UInt8 := UInt8.ofNat (letter d).toNat

theorem asBytes_base64url (b : Bytes) : asBytes (base64url b) = (sextets b).map letterByte := by
  have hbyte : ∀ d : Fin 64, String.utf8EncodeChar (letter d.val) = [letterByte d.val] := by
    decide
  have hmap : ∀ ds : List Nat, (∀ d ∈ ds, d < 64) →
      (ds.map letter).flatMap String.utf8EncodeChar = ds.map letterByte := by
    intro ds hds
    induction ds with
    | nil => rfl
    | cons d ds ih =>
      rw [List.forall_mem_cons] at hds
      rw [List.map_cons, List.flatMap_cons, ih hds.2, hbyte ⟨d, hds.1⟩]
      rfl
  rw [base64url, asBytes_ofList]
  exact hmap _ (sextets_lt b)

end Base64
end Diffz
