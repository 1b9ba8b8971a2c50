import Diffz.Lib.Json

/-!
# The bytes of a JSON value

`toVec` encodes the text of a value, for which every string in it is decoded first. `written` copies
the bytes of the strings instead and is the same function (`toVec_eq_written`). Values are evaluated
with it where they are hashed.
-/

set_option autoImplicit false

namespace Diffz
namespace Json

/-- `escape`, on a byte. -/
def escapeByte (b : UInt8) : Bytes :=
  if 35 ≤ b.toNat ∧ b.toNat ≠ 92 then [b]
  else (escape (Char.ofNat b.toNat)).flatMap String.utf8EncodeChar

theorem escapeByte_ascii (n : Fin 128) : escapeByte (UInt8.ofNat n.val) =
    (escape (Char.ofNat n.val)).flatMap String.utf8EncodeChar := by
  revert n
  decide +kernel

theorem escape_large {c : Char} (h : 128 ≤ c.val.toNat) : escape c = [c] := by
  have hne : ∀ n : UInt32, n.toNat < 128 → c.val ≠ n := by
    rintro n hn rfl
    omega
  have hchar : ∀ d : Char, d.val.toNat < 128 → c ≠ d := fun d hd hc =>
    hne d.val hd (congrArg Char.val hc)
  have hlt : ¬c.val < 32 := by
    rw [UInt32.lt_iff_toNat_lt]
    have h32 : (32 : UInt32).toNat = 32 := rfl
    omega
  unfold escape
  rw [if_neg (hchar _ (by decide)), if_neg (hchar _ (by decide)), if_neg (hne _ (by decide)),
    if_neg (hne _ (by decide)), if_neg (hne _ (by decide)), if_neg (hne _ (by decide)),
    if_neg (hne _ (by decide)), if_neg hlt]

/-- Escaping goes byte by byte: only ASCII characters are escaped. -/
theorem escape_utf8 (c : Char) : (escape c).flatMap String.utf8EncodeChar =
    (String.utf8EncodeChar c).flatMap escapeByte := by
  by_cases hc : c.val.toNat < 128
  · have hencode : String.utf8EncodeChar c = [UInt8.ofNat c.val.toNat] := by
      unfold String.utf8EncodeChar
      rw [if_pos (by omega)]
    have hascii := escapeByte_ascii ⟨c.val.toNat, hc⟩
    rw [hencode, List.flatMap_singleton, hascii]
    exact congrArg (fun d => (escape d).flatMap String.utf8EncodeChar) (Char.ofNat_toNat c).symm
  · have hplain : ∀ b ∈ String.utf8EncodeChar c, escapeByte b = [b] := by
      intro b hb
      have hlarge : 128 ≤ b.toNat := by
        by_contra hb'
        have hval := (utf8EncodeChar_of_ascii_mem (by omega) hb).2
        omega
      exact if_pos ⟨by omega, by omega⟩
    rw [escape_large (by omega), List.flatMap_singleton, List.flatMap_congr hplain,
      List.flatMap_singleton']

/-! ## Values -/

/-- A text between quotes, before `rest`. -/
def quotedBytes (s : String) (rest : Bytes) : Bytes :=
  34 :: (asBytes s).foldr (fun b out => escapeByte b ++ out) (34 :: rest)

theorem quotedBytes_eq (s : String) (rest : Bytes) :
    quotedBytes s rest = (quoted s).flatMap String.utf8EncodeChar ++ rest := by
  have hfold : ∀ (l rest : Bytes), l.foldr (fun b out => escapeByte b ++ out) rest =
      l.flatMap escapeByte ++ rest := by
    intro l rest
    induction l with
    | nil => rfl
    | cons b l ih => rw [List.foldr_cons, ih, List.flatMap_cons, List.append_assoc]
  have htext : (s.toList.flatMap escape).flatMap String.utf8EncodeChar =
      (asBytes s).flatMap escapeByte := by
    rw [asBytes_eq_flatMap, List.flatMap_assoc, List.flatMap_assoc]
    exact List.flatMap_congr fun c _ => escape_utf8 c
  have hquote : String.utf8EncodeChar '"' = [34] := by
    decide
  rw [quotedBytes, hfold, ← htext, quoted, List.flatMap_cons, List.flatMap_append,
    List.flatMap_singleton, hquote]
  simp

mutual

/-- The bytes of a value, before `rest`. -/
def written : Json → Bytes → Bytes
  | .null, rest => asBytes "null" ++ rest
  | .bool b, rest => (if b then asBytes "true" else asBytes "false") ++ rest
  | .num n, rest => (number n).flatMap String.utf8EncodeChar ++ rest
  | .float x, rest => asBytes x.text ++ rest
  | .str s, rest => quotedBytes s rest
  | .arr items, rest => 91 :: writtenItems items rest
  | .obj fields, rest => 123 :: writtenFields fields rest

def writtenItems : List Json → Bytes → Bytes
  | [], rest => 93 :: rest
  | [x], rest => written x (93 :: rest)
  | x :: xs, rest => written x (44 :: writtenItems xs rest)

def writtenFields : List (String × Json) → Bytes → Bytes
  | [], rest => 125 :: rest
  | [f], rest => writtenField f (125 :: rest)
  | f :: fs, rest => writtenField f (44 :: writtenFields fs rest)

def writtenField : String × Json → Bytes → Bytes
  | (k, v), rest => quotedBytes k (58 :: written v rest)

end

theorem asBytes_toList (s : String) : s.toList.flatMap String.utf8EncodeChar = asBytes s :=
  (asBytes_eq_flatMap s).symm

mutual

theorem written_eq (j : Json) (rest : Bytes) :
    written j rest = (render j).flatMap String.utf8EncodeChar ++ rest := by
  cases j with
  | null => rw [written, render, asBytes_toList]
  | bool b =>
    rw [written, render]
    cases b with
    | false => exact congrArg (· ++ rest) (asBytes_toList "false").symm
    | true => exact congrArg (· ++ rest) (asBytes_toList "true").symm
  | num n => rw [written, render]
  | float x => rw [written, render, asBytes_toList]
  | str s => rw [written, render, quotedBytes_eq]
  | arr items =>
    rw [written, render, List.flatMap_cons, writtenItems_eq]
    rfl
  | obj fields =>
    rw [written, render, List.flatMap_cons, writtenFields_eq]
    rfl

theorem writtenItems_eq (items : List Json) (rest : Bytes) :
    writtenItems items rest = (renderItems items).flatMap String.utf8EncodeChar ++ rest := by
  cases items with
  | nil =>
    rw [writtenItems, renderItems]
    rfl
  | cons x xs =>
    cases xs with
    | nil =>
      rw [writtenItems, renderItems, written_eq x, List.flatMap_append, List.append_assoc]
      rfl
    | cons y xs =>
      have hne : y :: xs = [] → False := by simp
      rw [writtenItems.eq_3 _ _ _ hne, renderItems.eq_3 _ _ hne, written_eq x,
        writtenItems_eq (y :: xs), List.flatMap_append, List.flatMap_cons, List.append_assoc,
        List.append_assoc]
      rfl

theorem writtenFields_eq (fields : List (String × Json)) (rest : Bytes) :
    writtenFields fields rest = (renderFields fields).flatMap String.utf8EncodeChar ++ rest := by
  cases fields with
  | nil =>
    rw [writtenFields, renderFields]
    rfl
  | cons f fs =>
    cases fs with
    | nil =>
      rw [writtenFields, renderFields, writtenField_eq f, List.flatMap_append, List.append_assoc]
      rfl
    | cons g fs =>
      have hne : g :: fs = [] → False := by simp
      rw [writtenFields.eq_3 _ _ _ hne, renderFields.eq_3 _ _ hne, writtenField_eq f,
        writtenFields_eq (g :: fs), List.flatMap_append, List.flatMap_cons, List.append_assoc,
        List.append_assoc]
      rfl

theorem writtenField_eq (f : String × Json) (rest : Bytes) :
    writtenField f rest = (renderField f).flatMap String.utf8EncodeChar ++ rest := by
  obtain ⟨k, v⟩ := f
  rw [writtenField, renderField, quotedBytes_eq, written_eq v, List.flatMap_append,
    List.flatMap_cons, List.append_assoc, List.append_assoc]
  rfl

end

theorem toVec_eq_written (j : Json) : toVec j = written j [] := by
  rw [written_eq, List.append_nil, toVec]

end Json
end Diffz
