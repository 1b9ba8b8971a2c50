import Mathlib.Algebra.Ring.Nat
import Mathlib.Data.List.Basic
import Mathlib.Data.List.DropRight
import Mathlib.Data.List.Infix

/-!
# Byte strings and text

The slice and string operations of the source's language, over lists: `split_once`,
`strip_prefix`, `trim_start` and friends. A byte string is a `List UInt8`; text is Lean's own
`String`, which is UTF-8 by construction, so `fromUtf8` is the only way from the first to the
second and `asBytes` the way back. The operations on text are stated over `List α` and read
through `String.toList`, since none of them looks inside a character.
-/

set_option autoImplicit false

namespace Diffz

abbrev Bytes := List UInt8

/-! ## UTF-8 -/

/-- `str::as_bytes`. -/
def asBytes (s : String) : Bytes := s.toByteArray.data.toList

/-- `str::from_utf8`. -/
def fromUtf8 (b : Bytes) : Option String := String.fromUTF8? ⟨b.toArray⟩

@[simp] theorem fromUtf8_asBytes (s : String) : fromUtf8 (asBytes s) = some s := by
  have hv : (⟨(asBytes s).toArray⟩ : ByteArray) = s.toByteArray := by simp [asBytes]
  unfold fromUtf8
  rw [hv, String.fromUTF8?, dif_pos s.isValidUTF8]
  rfl

theorem asBytes_of_fromUtf8 {b : Bytes} {s : String} (h : fromUtf8 b = some s) :
    asBytes s = b := by
  unfold fromUtf8 String.fromUTF8? at h
  split at h
  · cases h; simp [asBytes, String.fromUTF8]
  · cases h

theorem asBytes_append (s t : String) : asBytes (s ++ t) = asBytes s ++ asBytes t := by
  simp [asBytes, String.toByteArray_append]

theorem asBytes_ofList (l : List Char) :
    asBytes (String.ofList l) = l.flatMap String.utf8EncodeChar := by
  simp [asBytes, List.utf8Encode]

/-- The bytes of a text are those of its characters. -/
theorem asBytes_eq_flatMap (s : String) : asBytes s = s.toList.flatMap String.utf8EncodeChar := by
  conv_lhs => rw [← String.ofList_toList (s := s)]
  exact asBytes_ofList _

/-- An ASCII byte in an encoding is the whole encoding. -/
theorem utf8EncodeChar_of_ascii_mem {c : Char} {b : UInt8} (hb : b.toNat < 128)
    (h : b ∈ String.utf8EncodeChar c) : String.utf8EncodeChar c = [b] ∧ c.val.toNat = b.toNat := by
  have big : ∀ n, 128 ≤ n → n < 256 → b ≠ UInt8.ofNat n := by
    rintro n h1 h2 rfl
    rw [UInt8.toNat_ofNat'] at hb
    omega
  unfold String.utf8EncodeChar at h ⊢
  dsimp only at h ⊢
  split at h
  · rename_i hv
    obtain rfl := List.mem_singleton.mp h
    rw [if_pos hv, UInt8.toNat_ofNat']
    exact ⟨rfl, (Nat.mod_eq_of_lt (by omega)).symm⟩
  · -- Every byte of a longer encoding has its high bit set.
    exfalso
    split at h
    · simp only [List.mem_cons, List.not_mem_nil, or_false] at h
      rcases h with h | h
      all_goals exact big _ (by omega) (by omega) h
    · split at h
      · simp only [List.mem_cons, List.not_mem_nil, or_false] at h
        rcases h with h | h | h
        all_goals exact big _ (by omega) (by omega) h
      · simp only [List.mem_cons, List.not_mem_nil, or_false] at h
        rcases h with h | h | h | h
        all_goals exact big _ (by omega) (by omega) h

/-- An ASCII byte of a text is a character of it. -/
theorem mem_toList_of_ascii_mem {s : String} {c : Char} {b : UInt8} (hb : b.toNat < 128)
    (hc : c.val.toNat = b.toNat) (h : b ∈ asBytes s) : c ∈ s.toList := by
  rw [asBytes_eq_flatMap, List.mem_flatMap] at h
  obtain ⟨d, hd, hbd⟩ := h
  have hdc : d = c :=
    Char.ext (UInt32.toNat_inj.mp ((utf8EncodeChar_of_ascii_mem hb hbd).2.trans hc.symm))
  exact hdc ▸ hd

/-- A text whose last byte is ASCII ends in that character. -/
theorem eq_append_of_getLast?_ascii {s : String} {c : Char} {b : UInt8} (hb : b.toNat < 128)
    (hc : c.val.toNat = b.toNat) (h : (asBytes s).getLast? = some b) :
    ∃ t, s = t ++ String.singleton c := by
  rcases List.eq_nil_or_concat s.toList with hnil | ⟨init, d, hs⟩
  · rw [asBytes_eq_flatMap, hnil] at h
    cases h
  · rw [List.concat_eq_append] at hs
    rw [asBytes_eq_flatMap, hs, List.flatMap_append, List.flatMap_singleton,
      List.getLast?_append_of_ne_nil _ String.utf8EncodeChar_ne_nil] at h
    have hdc : d = c := Char.ext (UInt32.toNat_inj.mp
      ((utf8EncodeChar_of_ascii_mem hb (List.mem_of_getLast? h)).2.trans hc.symm))
    refine ⟨String.ofList init, ?_⟩
    rw [← String.toList_inj, hs, hdc]
    simp
/-! ## Splitting -/

section Split

variable {α : Type} [DecidableEq α]

/-- `strip_prefix`. -/
def stripPrefix (p l : List α) : Option (List α) :=
  if p.isPrefixOf l then some (l.drop p.length) else none

/-- `strip_suffix`. -/
def stripSuffix (p l : List α) : Option (List α) :=
  if p.isSuffixOf l then some (l.take (l.length - p.length)) else none

/-- `split_once`: what stands before and after the first occurrence of `p`. -/
def splitOnce (p : List α) : List α → Option (List α × List α)
  | [] => if p = [] then some ([], []) else none
  | x :: l =>
    if p.isPrefixOf (x :: l) then some ([], (x :: l).drop p.length)
    else (splitOnce p l).map fun ab => (x :: ab.1, ab.2)

/-- `splitn`: the pieces between the first `n - 1` occurrences of `x`, and the rest. -/
def splitN (x : α) : Nat → List α → List (List α)
  | 0, _ => []
  | 1, l => [l]
  | n + 2, l =>
    match splitOnce [x] l with
    | none => [l]
    | some (a, b) => a :: splitN x (n + 1) b

/-- `rsplit_once`: what stands before and after the last occurrence of `p`. -/
def rsplitOnce (p l : List α) : Option (List α × List α) :=
  (splitOnce p.reverse l.reverse).map fun ab => (ab.2.reverse, ab.1.reverse)

@[simp] theorem stripPrefix_append (p l : List α) : stripPrefix p (p ++ l) = some l := by
  simp [stripPrefix]

theorem stripPrefix_eq_some {p l v : List α} (h : stripPrefix p l = some v) : l = p ++ v := by
  unfold stripPrefix at h
  split at h
  · rename_i hp
    obtain ⟨t, rfl⟩ := List.isPrefixOf_iff_prefix.mp hp
    simpa using h
  · cases h

theorem stripPrefix_eq_none {p l : List α} (h : ¬ p <+: l) : stripPrefix p l = none := by
  rw [stripPrefix, if_neg]
  simpa using h

/-- A separator of one element splits at its first occurrence. -/
theorem splitOnce_singleton {x : α} {a b : List α} (h : x ∉ a) :
    splitOnce [x] (a ++ x :: b) = some (a, b) := by
  induction a with
  | nil => simp [splitOnce]
  | cons y a ih =>
    have hy : ¬ x = y := fun e => h (by simp [e])
    have ha : x ∉ a := fun m => h (by simp [m])
    simp [splitOnce, hy, ih ha]

/-- A separator whose first element does not occur before it splits at that occurrence. -/
theorem splitOnce_of_head_not_mem {x : α} {p a b : List α} (h : x ∉ a) :
    splitOnce (x :: p) (a ++ (x :: p ++ b)) = some (a, b) := by
  induction a with
  | nil => simp [splitOnce]
  | cons y a ih =>
    have hy : ¬ x = y := fun e => h (by simp [e])
    have ha : x ∉ a := fun m => h (by simp [m])
    simpa [splitOnce, hy] using ih ha

/-- A separator that has an element which does not occur before it, and occurs in it only from some
point on, splits at that occurrence. -/
theorem splitOnce_of_not_mem {x : α} {p q a b : List α} (ha : x ∉ a) (hp : x ∉ p) :
    splitOnce (p ++ x :: q) (a ++ (p ++ x :: q ++ b)) = some (a, b) := by
  induction a with
  | nil =>
    have hpre : (p ++ x :: q).isPrefixOf (p ++ x :: q ++ b) := by simp
    cases hl : p ++ x :: q with
    | nil => simp at hl
    | cons y l =>
      rw [hl] at hpre
      simp only [List.nil_append, List.cons_append] at hpre ⊢
      rw [splitOnce, if_pos hpre]
      simp
  | cons y a ih =>
    have hx : x ∉ y :: a ++ p := by
      simp only [List.mem_append, not_or]
      exact ⟨ha, hp⟩
    have hnot : ¬ (p ++ x :: q).isPrefixOf (y :: (a ++ (p ++ x :: q ++ b))) := by
      -- Before the first `x`, the separator has `p` and the text has more.
      intro hpre
      obtain ⟨t, ht⟩ := List.isPrefixOf_iff_prefix.mp hpre
      have htake := congrArg (List.takeWhile fun z => decide (z ≠ x)) ht
      have hleft : ((p ++ x :: q) ++ t).takeWhile (fun z => decide (z ≠ x)) = p := by
        rw [List.append_assoc, List.takeWhile_append_of_pos]
        · simp
        · intro z hz
          simpa using fun h : z = x => hp (h ▸ hz)
      have hright : (y :: (a ++ (p ++ x :: q ++ b))).takeWhile (fun z => decide (z ≠ x)) =
          y :: a ++ p := by
        have hassoc : y :: (a ++ (p ++ x :: q ++ b)) = (y :: a ++ p) ++ x :: (q ++ b) := by simp
        rw [hassoc, List.takeWhile_append_of_pos]
        · simp
        · intro z hz
          simpa using fun h : z = x => hx (h ▸ hz)
      rw [hleft, hright] at htake
      have hlen := congrArg List.length htake
      simp only [List.length_append, List.length_cons] at hlen
      omega
    rw [List.cons_append, splitOnce, if_neg hnot, ih fun hm => ha (List.mem_cons_of_mem y hm)]
    rfl

theorem splitOnce_eq_none {x : α} {p l : List α} (h : x ∉ l) : splitOnce (x :: p) l = none := by
  induction l with
  | nil => simp [splitOnce]
  | cons y l ih =>
    have hy : ¬ x = y := fun e => h (by simp [e])
    have hl : x ∉ l := fun m => h (by simp [m])
    simp [splitOnce, hy, ih hl]

end Split

/-! ## Characters -/

/-- Unicode's `White_Space`, which is what `char::is_whitespace` tests. -/
def isWhitespace (c : Char) : Bool :=
  (9 ≤ c.val && c.val ≤ 13) || c.val == 0x20 || c.val == 0x85 || c.val == 0xA0 ||
    c.val == 0x1680 || (0x2000 ≤ c.val && c.val ≤ 0x200A) || c.val == 0x2028 ||
    c.val == 0x2029 || c.val == 0x202F || c.val == 0x205F || c.val == 0x3000

/-- `str::trim_start`. -/
def trimStart (s : String) : String := String.ofList (s.toList.dropWhile isWhitespace)

/-- `str::trim_end`. -/
def trimEnd (s : String) : String := String.ofList (s.toList.rdropWhile isWhitespace)

/-- `str::trim`. -/
def trim (s : String) : String :=
  String.ofList ((s.toList.dropWhile isWhitespace).rdropWhile isWhitespace)

/-- `str::to_ascii_lowercase`. -/
def asciiLower (s : String) : String := String.ofList (s.toList.map Char.toLower)

/-- `str::trim().is_empty()`. -/
def isBlank (s : String) : Bool := s.toList.all isWhitespace

/-- `str::lines`. A line feed ends a line, with the carriage return before it; the rest after the
last line feed is a line of its own if it is not empty. -/
def textLines (s : List Char) : List (List Char) :=
  let pieces := s.splitOn '\n'
  (pieces.dropLast.map fun l => (stripSuffix ['\r'] l).getD l) ++
    (pieces.getLast?.toList.filter (· ≠ []))

/-- `str::split_whitespace`. -/
def splitWhitespace (s : String) : List String :=
  ((s.toList.splitOnP isWhitespace).filter (· ≠ [])).map String.ofList

/-- `u8::is_ascii_whitespace`. -/
def isAsciiWhitespace (b : UInt8) : Bool :=
  b == 32 || b == 9 || b == 10 || b == 12 || b == 13

/-! ## Unsigned 32-bit numbers, carried as naturals -/

def u32Max : Nat := 4294967295

/-- `u32::checked_add`. -/
def checkedAdd (a b : Nat) : Option Nat := if a + b ≤ u32Max then some (a + b) else none

/-- `u32::saturating_add`. -/
def saturatingAdd (a b : Nat) : Nat := min (a + b) u32Max

/-- `+` on `u32` in a release build. -/
def wrappingAdd (a b : Nat) : Nat := (a + b) % (u32Max + 1)

/-- `str::parse::<u32>` allows one plus sign before the digits. -/
def unsigned (s : List Char) : List Char := if s.head? = some '+' then s.tail else s

/-- `str::parse::<u32>`. -/
def parseU32 (s : List Char) : Option Nat :=
  if unsigned s ≠ [] ∧ (unsigned s).all Char.isDigit ∧
      Nat.ofDigitChars 10 (unsigned s) 0 ≤ u32Max then
    some (Nat.ofDigitChars 10 (unsigned s) 0)
  else none

def u64Max : Nat := 18446744073709551615

/-- `str::parse::<u64>`. -/
def parseU64 (s : List Char) : Option Nat :=
  if unsigned s ≠ [] ∧ (unsigned s).all Char.isDigit ∧
      Nat.ofDigitChars 10 (unsigned s) 0 ≤ u64Max then
    some (Nat.ofDigitChars 10 (unsigned s) 0)
  else none

theorem parseU32_le {s : List Char} {n : Nat} (h : parseU32 s = some n) : n ≤ u32Max := by
  unfold parseU32 at h
  split at h
  · rename_i hc
    cases h
    exact hc.2.2
  · cases h

theorem checkedAdd_eq_some {a b : Nat} (h : a + b ≤ u32Max) : checkedAdd a b = some (a + b) :=
  if_pos h

theorem checkedAdd_eq_none {a b : Nat} (h : ¬ a + b ≤ u32Max) : checkedAdd a b = none :=
  if_neg h

theorem saturatingAdd_eq {a b : Nat} (h : a + b ≤ u32Max) : saturatingAdd a b = a + b :=
  Nat.min_eq_left h

theorem wrappingAdd_eq {a b : Nat} (h : a + b ≤ u32Max) : wrappingAdd a b = a + b :=
  Nat.mod_eq_of_lt (Nat.lt_succ_of_le h)

/-! ## Decimal numerals read back -/

theorem digits_all_isDigit (n : Nat) : (Nat.toDigits 10 n).all Char.isDigit = true := by
  rw [List.all_eq_true]
  intro c hc
  exact Nat.isDigit_of_mem_toDigits (by decide) (by decide) hc

theorem digits_head_ne_plus (n : Nat) : (Nat.toDigits 10 n).head? ≠ some '+' := by
  intro h
  have hd := List.all_eq_true.mp (digits_all_isDigit n) '+' (List.mem_of_mem_head? (by simp [h]))
  exact absurd hd (by decide)

/-- Parsing a number's decimal numeral gives it back. -/
theorem parseU32_toDigits {n : Nat} (h : n ≤ u32Max) : parseU32 (Nat.toDigits 10 n) = some n := by
  have hne : Nat.toDigits 10 n ≠ [] := Nat.toDigits_ne_nil
  have hu : unsigned (Nat.toDigits 10 n) = Nat.toDigits 10 n := if_neg (digits_head_ne_plus n)
  rw [parseU32, hu, Nat.ofDigitChars_ten_toDigits, if_pos ⟨hne, digits_all_isDigit n, h⟩]

theorem parseU64_toDigits {n : Nat} (h : n ≤ u64Max) : parseU64 (Nat.toDigits 10 n) = some n := by
  have hne : Nat.toDigits 10 n ≠ [] := Nat.toDigits_ne_nil
  have hu : unsigned (Nat.toDigits 10 n) = Nat.toDigits 10 n := if_neg (digits_head_ne_plus n)
  rw [parseU64, hu, Nat.ofDigitChars_ten_toDigits, if_pos ⟨hne, digits_all_isDigit n, h⟩]

theorem parseU64_le {s : List Char} {n : Nat} (h : parseU64 s = some n) : n ≤ u64Max := by
  unfold parseU64 at h
  split at h
  · rename_i hc
    cases h
    exact hc.2.2
  · cases h

end Diffz
