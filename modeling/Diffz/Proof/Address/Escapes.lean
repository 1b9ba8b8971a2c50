import Diffz.Lib.Utf8
import Diffz.Proof.Address.Encoded

/-!
# Escapes

`decode_path` reads a path with escapes as it is read everywhere, but for one thing: the two
characters after a percent sign go through `u8::from_str_radix`, for which a plus sign and a digit
are a number as well (`decodePath_exact_iff`). Bytes and characters agree about the percent signs,
since no other character has that byte in its encoding.
-/

set_option autoImplicit false

namespace Diffz
namespace Proof

open Diffz.Github (encodePath decodePath)

/-! ## The standard -/

def escapeDigit (c : Char) : Option Nat :=
  if '0' ≤ c ∧ c ≤ '9' then some (c.toNat - 48)
  else if 'A' ≤ c ∧ c ≤ 'F' then some (c.toNat - 55)
  else if 'a' ≤ c ∧ c ≤ 'f' then some (c.toNat - 87)
  else none

/-- After every percent sign is such a character, and then a hexadecimal digit. -/
def Escaped (first : Char → Prop) (s : List Char) : Prop :=
  ∀ before after, s = before ++ '%' :: after →
    ∃ a b rest, after = a :: b :: rest ∧ first a ∧ (escapeDigit b).isSome = true

/-- Every percent sign is followed by two hexadecimal digits. -/
def WellEscaped (s : List Char) : Prop := Escaped (fun a => (escapeDigit a).isSome = true) s

/-- What `from_str_radix` takes: the first digit may be a plus sign. -/
def LaxEscaped (s : List Char) : Prop :=
  Escaped (fun a => a = '+' ∨ (escapeDigit a).isSome = true) s

/-- The bytes that are meant; a character that is no digit counts for nothing. -/
def unescaped : List Char → Bytes
  | [] => []
  | c :: rest =>
    if c = '%' then
      match rest with
      | a :: b :: rest =>
        UInt8.ofNat (16 * (escapeDigit a).getD 0 + (escapeDigit b).getD 0) :: unescaped rest
      | _ => []
    else String.utf8EncodeChar c ++ unescaped rest

section Escaped

variable {first : Char → Prop} {s : List Char} {c : Char}

theorem escaped_nil : Escaped first [] := by
  intro before after h
  cases before <;> cases h

theorem escaped_cons (hc : c ≠ '%') : Escaped first (c :: s) ↔ Escaped first s := by
  constructor
  · intro h before after hs
    exact h (c :: before) after (by rw [hs, List.cons_append])
  · intro h before after hs
    cases before with
    | nil => exact absurd (List.cons.inj hs).1 hc
    | cons d before => exact h before after (List.cons.inj hs).2

theorem escaped_percent {a b : Char} (ha : a ≠ '%') :
    Escaped first ('%' :: a :: b :: s) ↔
      first a ∧ (escapeDigit b).isSome = true ∧ Escaped first s := by
  have hb : (escapeDigit b).isSome = true → b ≠ '%' := by
    rintro h rfl
    exact absurd h (by decide)
  constructor
  · intro h
    obtain ⟨a', b', rest, heq, ha', hb'⟩ := h [] (a :: b :: s) rfl
    cases heq
    refine ⟨ha', hb', fun before after hs => h ('%' :: a :: b :: before) after ?_⟩
    rw [hs]
    rfl
  · rintro ⟨hfirst, hdigit, h⟩ before after hs
    rw [← escaped_cons (hb hdigit), ← escaped_cons ha] at h
    cases before with
    | nil => exact ⟨a, b, s, (List.cons.inj hs).2.symm, hfirst, hdigit⟩
    | cons d before => exact h before after (List.cons.inj hs).2

theorem not_escaped_short (h : s.length < 2) : ¬ Escaped first ('%' :: s) := by
  intro hs
  obtain ⟨a, b, rest, rfl, -⟩ := hs [] s rfl
  simp only [List.length_cons] at h
  omega

end Escaped

/-! ## Bytes and characters -/

/-- The bytes of a character: its number where it is ASCII, and otherwise two or more high ones. -/
theorem utf8EncodeChar_cases (c : Char) :
    (c.toNat < 128 ∧ String.utf8EncodeChar c = [UInt8.ofNat c.toNat]) ∨
      ∃ x y rest, String.utf8EncodeChar c = x :: y :: rest ∧ 128 ≤ x.toNat ∧ 128 ≤ y.toNat ∧
        escapeDigit c = none ∧ c ≠ '+' := by
  by_cases h : c.toNat < 128
  · exact .inl ⟨h, utf8EncodeChar_ascii h⟩
  · have hhigh : ∀ b ∈ String.utf8EncodeChar c, 128 ≤ b.toNat := by
      intro b hb
      by_contra hlow
      have hval : c.toNat = b.toNat := (utf8EncodeChar_of_ascii_mem (by omega) hb).2
      omega
    have hsize : 2 ≤ (String.utf8EncodeChar c).length := by
      rw [String.length_utf8EncodeChar]
      have hone : c.utf8Size ≠ 1 := by
        rw [Ne, Char.utf8Size_eq_one_iff, UInt32.le_iff_toNat_le]
        exact fun hle => h (Nat.lt_succ_of_le hle)
      have hpos := c.utf8Size_pos
      omega
    have hbound : ∀ d : Char, d.toNat < 128 → ¬ c ≤ d := by
      intro d hd hle
      have hnat : c.toNat ≤ d.toNat := UInt32.le_iff_toNat_le.mp hle
      omega
    have hnone : escapeDigit c = none := by
      rw [escapeDigit, if_neg fun hc => hbound '9' (by decide) hc.2,
        if_neg fun hc => hbound 'F' (by decide) hc.2, if_neg fun hc => hbound 'f' (by decide) hc.2]
    rcases hbytes : String.utf8EncodeChar c with _ | ⟨x, _ | ⟨y, rest⟩⟩
    · rw [hbytes] at hsize
      cases hsize
    · rw [hbytes] at hsize
      simp at hsize
    · rw [hbytes] at hhigh
      refine .inr ⟨x, y, rest, rfl, hhigh x (by simp), hhigh y (by simp), hnone, ?_⟩
      rintro rfl
      exact h (by decide)

/-- What the reader makes of two characters. -/
def pairOf (a b : Char) : Option UInt8 :=
  if a = '+' ∨ (escapeDigit a).isSome = true then
    (escapeDigit b).map fun n => UInt8.ofNat (16 * (escapeDigit a).getD 0 + n)
  else none

theorem pairValue_ascii {a b : Char} (ha : a.toNat < 128) (hb : b.toNat < 128) :
    Percent.pairValue (UInt8.ofNat a.toNat) (UInt8.ofNat b.toNat) = pairOf a b := by
  have hdigit : ∀ n : Fin 128, Percent.hexValue (UInt8.ofNat n) =
      (escapeDigit (Char.ofNat n)).map UInt8.ofNat := by decide +kernel
  have hplus : ∀ n : Fin 128, (UInt8.ofNat n = 43 ↔ Char.ofNat n = '+') := by decide +kernel
  have hdigitA := hdigit ⟨a.toNat, ha⟩
  have hdigitB := hdigit ⟨b.toNat, hb⟩
  have hplusA := hplus ⟨a.toNat, ha⟩
  simp only [Char.ofNat_toNat] at hdigitA hdigitB hplusA
  rw [Percent.pairValue, pairOf, hdigitA, hdigitB]
  by_cases hp : a = '+'
  · subst hp
    have hnone : escapeDigit '+' = none := by decide
    rw [if_pos (hplusA.mpr rfl), if_pos (.inl rfl), hnone]
    simp
  · rw [if_neg fun h => hp (hplusA.mp h)]
    cases escapeDigit a with
    | none => simp [hp]
    | some m => cases escapeDigit b <;> simp

theorem pairValue_high {x y : UInt8} (h : 128 ≤ x.toNat ∨ 128 ≤ y.toNat) :
    Percent.pairValue x y = none := by
  have hall : ∀ n : Fin 256, 128 ≤ n.val → Percent.hexValue (UInt8.ofNat n) = none := by
    decide +kernel
  have hnone : ∀ z : UInt8, 128 ≤ z.toNat → Percent.hexValue z = none := by
    intro z hz
    simpa using hall ⟨z.toNat, z.toNat_lt⟩ hz
  rw [Percent.pairValue]
  rcases h with hx | hy
  · have hne : x ≠ 43 := by
      rintro rfl
      exact absurd hx (by decide)
    rw [if_neg hne, hnone x hx]
    rfl
  · rw [hnone y hy]
    split
    · rfl
    · cases Percent.hexValue x <;> rfl

theorem decode_escape (a b : Char) (rest : List Char) :
    Percent.decode (textBytes ('%' :: a :: b :: rest)) =
      (pairOf a b).bind fun x => (Percent.decode (textBytes rest)).map (x :: ·) := by
  have hpercent : String.utf8EncodeChar '%' = [37] := by decide
  have hnone : escapeDigit b = none → pairOf a b = none := by
    intro h
    rw [pairOf, h, Option.map_none, ite_self]
  rw [textBytes, List.flatMap_cons, List.flatMap_cons, List.flatMap_cons, hpercent]
  rcases utf8EncodeChar_cases a with ⟨ha, hbytesA⟩ | ⟨x, y, more, hbytesA, hx, hy, hdigit, hplus⟩
  · rcases utf8EncodeChar_cases b with ⟨hb, hbytesB⟩ | ⟨x, y, more, hbytesB, hx, hy, hdigit, hplus⟩
    · rw [hbytesA, hbytesB, ← pairValue_ascii ha hb]
      exact Percent.decode_percent _ _ _
    · rw [hbytesA, hbytesB, hnone hdigit]
      exact (Percent.decode_percent _ _ _).trans (by rw [pairValue_high (.inr hx)]; rfl)
  · have hpair : pairOf a b = none := by simp [pairOf, hplus, hdigit]
    rw [hbytesA, hpair]
    exact (Percent.decode_percent _ _ _).trans (by rw [pairValue_high (.inl hx)]; rfl)

theorem decode_short {s : List Char} (h : s.length < 2) :
    Percent.decode (textBytes ('%' :: s)) = none := by
  have hpercent : String.utf8EncodeChar '%' = [37] := by decide
  rcases s with _ | ⟨a, _ | ⟨b, rest⟩⟩
  · decide
  · rw [textBytes, List.flatMap_cons, List.flatMap_cons, List.flatMap_nil, hpercent, List.append_nil]
    rcases utf8EncodeChar_cases a with ⟨ha, hbytes⟩ | ⟨x, y, more, hbytes, hx, -⟩
    · rw [hbytes]
      rfl
    · rw [hbytes]
      exact (Percent.decode_percent _ _ _).trans (by rw [pairValue_high (.inl hx)]; rfl)
  · simp only [List.length_cons] at h
    omega

theorem decode_append_of_ne {bytes : Bytes} (h : ∀ b ∈ bytes, b ≠ 37) (rest : Bytes) :
    Percent.decode (bytes ++ rest) = (Percent.decode rest).map (bytes ++ ·) := by
  induction bytes with
  | nil => simp
  | cons b bytes ih =>
    rw [List.cons_append, Percent.decode_cons_of_ne (h b List.mem_cons_self),
      ih fun x hx => h x (List.mem_cons_of_mem b hx), Option.map_map]
    rfl

theorem decode_char {c : Char} (hc : c ≠ '%') (rest : Bytes) :
    Percent.decode (String.utf8EncodeChar c ++ rest) =
      (Percent.decode rest).map (String.utf8EncodeChar c ++ ·) := by
  refine decode_append_of_ne (fun b hb => ?_) rest
  rintro rfl
  have hval : c.toNat = 37 := (utf8EncodeChar_of_ascii_mem (by decide) hb).2
  exact hc (Char.ext (UInt32.toNat_inj.mp hval))

/-- **The reader takes these texts, for these bytes.** -/
theorem decode_eq_some_iff (s : List Char) (bytes : Bytes) :
    Percent.decode (textBytes s) = some bytes ↔ LaxEscaped s ∧ bytes = unescaped s := by
  unfold LaxEscaped
  fun_induction unescaped s generalizing bytes with
  | case1 =>
    have hnil : Percent.decode (textBytes []) = some [] := rfl
    rw [hnil, Option.some.injEq, eq_comm]
    exact (and_iff_right escaped_nil).symm
  | case2 a b rest ih =>
    rw [decode_escape]
    by_cases ha : a = '%'
    · subst ha
      have hnone : pairOf '%' b = none := by
        have hdigit : escapeDigit '%' = none := by decide
        simp [pairOf, hdigit]
      rw [hnone, Option.bind_none]
      refine iff_of_false (by simp) fun h => ?_
      obtain ⟨a', b', more, heq, hfirst, -⟩ := h.1 [] ('%' :: b :: rest) rfl
      cases heq
      exact absurd hfirst (by decide)
    · rw [escaped_percent ha, pairOf]
      by_cases hfirst : a = '+' ∨ (escapeDigit a).isSome = true
      · rw [if_pos hfirst, and_iff_right hfirst]
        cases hb : escapeDigit b with
        | none => simp
        | some n =>
          simp only [Option.map_some, Option.bind_some, Option.isSome_some, true_and,
            Option.map_eq_some_iff, Option.getD_some]
          constructor
          · rintro ⟨bytes', h, rfl⟩
            obtain ⟨hrest, rfl⟩ := (ih bytes').mp h
            exact ⟨hrest, rfl⟩
          · rintro ⟨hrest, rfl⟩
            exact ⟨unescaped rest, (ih _).mpr ⟨hrest, rfl⟩, rfl⟩
      · rw [if_neg hfirst]
        simp [hfirst]
  | case3 rest hrest =>
    have hshort : rest.length < 2 := by
      rcases rest with _ | ⟨a, _ | ⟨b, rest⟩⟩
      · decide
      · simp
      · exact absurd rfl (hrest a b rest)
    rw [decode_short hshort]
    exact iff_of_false (by simp) fun h => not_escaped_short hshort h.1
  | case4 c rest hc ih =>
    have hcons : textBytes (c :: rest) = String.utf8EncodeChar c ++ textBytes rest := rfl
    rw [hcons, decode_char hc, escaped_cons hc, Option.map_eq_some_iff]
    constructor
    · rintro ⟨bytes', h, rfl⟩
      obtain ⟨hrest, rfl⟩ := (ih bytes').mp h
      exact ⟨hrest, rfl⟩
    · rintro ⟨hrest, rfl⟩
      exact ⟨unescaped rest, (ih _).mpr ⟨hrest, rfl⟩, rfl⟩

/-! ## The claim -/

/-- A percent sign, a plus sign and a hexadecimal digit. -/
def HasPlusEscape (s : List Char) : Prop :=
  ∃ before b after, s = before ++ '%' :: '+' :: b :: after ∧ (escapeDigit b).isSome = true

theorem wellEscaped_iff (s : List Char) : WellEscaped s ↔ LaxEscaped s ∧ ¬ HasPlusEscape s := by
  constructor
  · intro h
    refine ⟨fun before after hs => ?_, ?_⟩
    · obtain ⟨a, b, rest, hafter, ha, hb⟩ := h before after hs
      exact ⟨a, b, rest, hafter, .inr ha, hb⟩
    · rintro ⟨before, b, after, hs, -⟩
      obtain ⟨a', b', rest, heq, ha, -⟩ := h before _ hs
      cases heq
      exact absurd ha (by decide)
  · rintro ⟨h, hplus⟩ before after hs
    obtain ⟨a, b, rest, hafter, rfl | ha, hb⟩ := h before after hs
    · exact absurd ⟨before, b, rest, by rw [hs, hafter], hb⟩ hplus
    · exact ⟨a, b, rest, hafter, ha, hb⟩

/-- The text is decoded when its escapes are well formed and mean UTF-8, and to what they mean. -/
def DecodesExactly (s : List Char) : Prop :=
  ∀ t, decodePath s = .ok t ↔ WellEscaped s ∧ fromUtf8 (unescaped s) = some (String.ofList t)

theorem decodePath_eq_ok_iff (s t : List Char) :
    decodePath s = .ok t ↔ LaxEscaped s ∧ fromUtf8 (unescaped s) = some (String.ofList t) := by
  have hbytes : asBytes (String.ofList s) = textBytes s := asBytes_ofList s
  rw [decodePath, hbytes]
  cases hdecode : Percent.decode (textBytes s) with
  | none =>
    refine iff_of_false (by simp) fun h => ?_
    have hsome := (decode_eq_some_iff s (unescaped s)).mpr ⟨h.1, rfl⟩
    rw [hdecode] at hsome
    cases hsome
  | some bytes =>
    obtain ⟨hlax, rfl⟩ := (decode_eq_some_iff s bytes).mp hdecode
    cases htext : fromUtf8 (unescaped s) with
    | none => simp [htext]
    | some text =>
      simp only [htext]
      rw [Except.ok.injEq, Option.some.injEq, and_iff_right hlax]
      constructor
      · rintro rfl
        rw [String.ofList_toList]
      · rintro rfl
        rw [String.toList_ofList]

/-- **`decode_path` decodes exactly**, unless it takes a plus sign for a digit and the text for a
path: a text that has such an escape has to be refused for something else. -/
theorem decodePath_exact_iff (s : List Char) :
    (DecodesExactly s ∧ ∀ t, decodePath (encodePath t).toList = .ok t.toList) ↔
      (HasPlusEscape s → ¬ LaxEscaped s ∨ fromUtf8 (unescaped s) = none) := by
  rw [and_iff_left decodePath_encodePath]
  constructor
  · intro h hplus
    by_contra hneither
    rw [not_or, not_not] at hneither
    obtain ⟨text, htext⟩ := Option.ne_none_iff_exists'.mp hneither.2
    have hok := (decodePath_eq_ok_iff s text.toList).mpr
      ⟨hneither.1, by rw [String.ofList_toList]; exact htext⟩
    exact ((wellEscaped_iff s).mp ((h _).mp hok).1).2 hplus
  · intro h t
    rw [decodePath_eq_ok_iff, wellEscaped_iff]
    refine ⟨fun hok => ⟨⟨hok.1, fun hplus => ?_⟩, hok.2⟩, fun hok => ⟨hok.1.1, hok.2⟩⟩
    rcases h hplus with hno | hnone
    · exact hno hok.1
    · rw [hnone] at hok
      cases hok.2

/-- `%+f` is read as the byte 15. -/
theorem plusEscape_decoded :
    decodePath "%+f".toList = .ok ['\x0f'] ∧ ¬ DecodesExactly "%+f".toList := by
  have hok : decodePath "%+f".toList = .ok ['\x0f'] := by decide +kernel
  refine ⟨hok, fun h => ?_⟩
  exact ((wellEscaped_iff _).mp ((h _).mp hok).1).2 ⟨[], 'f', [], rfl, by decide⟩

end Proof
end Diffz
