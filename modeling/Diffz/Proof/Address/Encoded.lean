import Diffz.Adapters.Address
import Diffz.Lib.Search

/-!
# Encoded paths

A path is encoded character by character. Letters, digits and the signs of names stand for
themselves, the slash and the dot as well, and no other character is written with either of these.
So an encoded path has the segments of the path, each encoded, and decoding gives it back.
-/

set_option autoImplicit false

namespace Diffz
namespace Proof

open Diffz.Github (encodePath decodePath)

/-! ## One character -/

/-- What `encode_path` writes for a character. -/
def encodeChar (c : Char) : List Char :=
  ((String.utf8EncodeChar c).flatMap Percent.encodeByte).map fun b => Char.ofNat b.toNat

theorem encodePath_toList (s : String) : (encodePath s).toList = s.toList.flatMap encodeChar := by
  rw [encodePath, String.toList_ofList, asBytes_eq_flatMap, Percent.encode, List.flatMap_assoc,
    List.map_flatMap]
  rfl

theorem encodePath_append (s t : String) : encodePath (s ++ t) = encodePath s ++ encodePath t := by
  rw [← String.toList_inj]
  simp [encodePath_toList]

/-- A byte that `encode_path` writes. -/
theorem mem_encodeByte (b : UInt8) : ∀ x ∈ Percent.encodeByte b,
    x.toNat < 128 ∧ (x = 47 ∨ x = 46 → b = x) ∧ isWhitespace (Char.ofNat x.toNat) = false ∧
      (nameChar (Char.ofNat x.toNat) || Char.ofNat x.toNat ∈ ['/', '~'] ||
        Char.ofNat x.toNat = '%') = true := by
  have hall : ∀ n : Fin 256, (Percent.encodeByte (.ofNat n)).all (fun x =>
      decide (x.toNat < 128 ∧ (x = 47 ∨ x = 46 → UInt8.ofNat n = x) ∧
        isWhitespace (Char.ofNat x.toNat) = false ∧
          (nameChar (Char.ofNat x.toNat) || Char.ofNat x.toNat ∈ ['/', '~'] ||
            Char.ofNat x.toNat = '%') = true)) = true := by
    decide +kernel
  have hb := hall ⟨b.toNat, b.toNat_lt⟩
  simp only [UInt8.ofNat_toNat] at hb
  exact fun x hx => of_decide_eq_true (List.all_eq_true.mp hb x hx)

theorem encodeByte_ascii (b : UInt8) : ∀ x ∈ Percent.encodeByte b, x.toNat < 128 :=
  fun x hx => (mem_encodeByte b x hx).1

/-- An unreserved byte is written for itself only. -/
theorem mem_encodeByte_unreserved (b : UInt8) :
    ∀ x ∈ Percent.encodeByte b, x = 47 ∨ x = 46 → b = x :=
  fun x hx => (mem_encodeByte b x hx).2.1

theorem mem_encodeChar {c x : Char} (hx : x = '/' ∨ x = '.') (h : x ∈ encodeChar c) : c = x := by
  obtain ⟨y, hy, rfl⟩ := List.mem_map.mp h
  obtain ⟨b, hb, hyb⟩ := List.mem_flatMap.mp hy
  have hy128 := encodeByte_ascii b y hyb
  have hval : (Char.ofNat y.toNat).val.toNat = y.toNat := by
    rw [Char.ofNat, dif_pos (.inl (by omega))]
    rfl
  have hcode : y = 47 ∨ y = 46 := by
    rcases hx with hx | hx
    · left
      have h47 := congrArg (fun c : Char => c.val.toNat) hx
      rw [hval] at h47
      exact UInt8.toNat_inj.mp h47
    · right
      have h46 := congrArg (fun c : Char => c.val.toNat) hx
      rw [hval] at h46
      exact UInt8.toNat_inj.mp h46
  cases mem_encodeByte_unreserved b y hyb hcode
  have hc := (utf8EncodeChar_of_ascii_mem hy128 hb).2
  exact Char.ext (UInt32.toNat_inj.mp (hc.trans hval.symm))

theorem encodeChar_ne_nil (c : Char) : encodeChar c ≠ [] := by
  intro h
  have hb := List.map_eq_nil_iff.mp h
  cases hc : String.utf8EncodeChar c with
  | nil => exact String.utf8EncodeChar_ne_nil hc
  | cons b bs =>
    rw [hc, List.flatMap_cons, List.append_eq_nil_iff] at hb
    have hnil := hb.1
    unfold Percent.encodeByte at hnil
    split at hnil <;> cases hnil

/-- The characters that stand for themselves. -/
def plainChar (c : Char) : Bool := nameChar c || c ∈ ['/', '~']

theorem plain_of_all {l : List Char} (h : l.all plainChar = true) : ∀ c ∈ l, plainChar c :=
  List.all_eq_true.mp h

theorem isAlpha_eq (c : Char) : c.isAlpha = (c.isUpper || c.isLower) := rfl

theorem isUpper_eq (c : Char) : c.isUpper = decide (c.val ≥ 'A'.val ∧ c.val ≤ 'Z'.val) := rfl

theorem isLower_eq (c : Char) :
    c.isLower = (decide (c.val ≥ 'a'.val) && decide (c.val ≤ 'z'.val)) := rfl

theorem plainChar_ascii {c : Char} (h : plainChar c) : c.toNat < 128 := by
  have hval : c.toNat = c.val.toNat := rfl
  simp only [plainChar, nameChar, Char.isAlphanum, isAlpha_eq, isUpper_eq, isLower_eq,
    Char.isDigit, Bool.or_eq_true, Bool.and_eq_true, decide_eq_true_eq, List.mem_cons,
    List.not_mem_nil, or_false, UInt32.le_iff_toNat_le, ge_iff_le] at h
  rcases h with (((h | h) | h) | rfl | rfl | rfl) | rfl | rfl
  · exact Nat.lt_of_le_of_lt h.2 (by decide)
  · exact Nat.lt_of_le_of_lt h.2 (by decide)
  · exact Nat.lt_of_le_of_lt h.2 (by decide)
  all_goals decide

theorem encodeChar_plain {c : Char} (h : plainChar c) : encodeChar c = [c] := by
  have hall : ∀ n : Fin 128, plainChar (Char.ofNat n) →
      encodeChar (Char.ofNat n) = [Char.ofNat n] := by decide +kernel
  simpa [h] using hall ⟨c.toNat, plainChar_ascii h⟩

theorem flatMap_encodeChar_plain {l : List Char} (h : ∀ c ∈ l, plainChar c) :
    l.flatMap encodeChar = l := by
  induction l with
  | nil => rfl
  | cons c l ih =>
    rw [List.flatMap_cons, encodeChar_plain (h c (by simp)), ih fun d hd => h d (by simp [hd])]
    rfl

theorem encodePath_plain {s : String} (h : ∀ c ∈ s.toList, plainChar c) : encodePath s = s := by
  rw [← String.toList_inj, encodePath_toList, flatMap_encodeChar_plain h]

/-! ## Reading back -/

/-- The byte of an ASCII character. -/
theorem utf8EncodeChar_ascii {c : Char} (h : c.toNat < 128) :
    String.utf8EncodeChar c = [UInt8.ofNat c.toNat] := by
  have hval : c.val.toNat ≤ 127 := Nat.le_of_lt_succ h
  rw [String.utf8EncodeChar]
  exact if_pos hval

/-- ASCII bytes, as characters. -/
theorem asBytes_ascii {bytes : Bytes} (h : ∀ b ∈ bytes, b.toNat < 128) :
    asBytes (String.ofList (bytes.map fun b => Char.ofNat b.toNat)) = bytes := by
  rw [asBytes_ofList]
  induction bytes with
  | nil => rfl
  | cons b bytes ih =>
    have hlt : b.toNat < 128 := h b (by simp)
    have hchar : (Char.ofNat b.toNat).toNat = b.toNat := by
      rw [Char.ofNat, dif_pos (.inl (by omega))]
      rfl
    have hb := utf8EncodeChar_ascii (hchar ▸ hlt)
    rw [hchar, UInt8.ofNat_toNat] at hb
    rw [List.map_cons, List.flatMap_cons, hb, ih fun x hx => h x (by simp [hx])]
    rfl

/-- **Encoding is undone by decoding.** -/
theorem decodePath_encodePath (t : String) : decodePath (encodePath t).toList = .ok t.toList := by
  have hascii : ∀ b ∈ Percent.encode (asBytes t), b.toNat < 128 := by
    intro b hb
    obtain ⟨c, -, hc⟩ := List.mem_flatMap.mp hb
    exact encodeByte_ascii c b hc
  have hbytes : asBytes (String.ofList (encodePath t).toList) = Percent.encode (asBytes t) := by
    rw [String.ofList_toList, encodePath, asBytes_ascii hascii]
  simp only [decodePath, hbytes, Percent.decode_encode, fromUtf8_asBytes]

/-- An ASCII character before a text. -/
theorem fromUtf8_cons_ascii {c : Char} (h : c.toNat < 128) (bytes : Bytes) :
    fromUtf8 (UInt8.ofNat c.toNat :: bytes) =
      (fromUtf8 bytes).map fun t => String.ofList (c :: t.toList) := by
  have hbytes : ∀ t : String, asBytes (String.ofList (c :: t.toList)) =
      UInt8.ofNat c.toNat :: asBytes t := by
    intro t
    rw [asBytes_ofList, List.flatMap_cons, utf8EncodeChar_ascii h, ← asBytes_eq_flatMap]
    rfl
  cases hb : fromUtf8 bytes with
  | some t => rw [← asBytes_of_fromUtf8 hb, ← hbytes, fromUtf8_asBytes, Option.map_some]
  | none =>
    cases hw : fromUtf8 (UInt8.ofNat c.toNat :: bytes) with
    | none => rfl
    | some w =>
      -- The first character of such a text would be this one, and the rest would be a text.
      exfalso
      have hbytes := asBytes_of_fromUtf8 hw
      rw [asBytes_eq_flatMap] at hbytes
      cases hl : w.toList with
      | nil =>
        rw [hl] at hbytes
        cases hbytes
      | cons d l =>
        rw [hl, List.flatMap_cons] at hbytes
        have hmem : UInt8.ofNat c.toNat ∈ String.utf8EncodeChar d := by
          cases hd : String.utf8EncodeChar d with
          | nil => exact absurd hd String.utf8EncodeChar_ne_nil
          | cons b bs =>
            rw [hd, List.cons_append] at hbytes
            rw [(List.cons.inj hbytes).1]
            exact List.mem_cons_self
        have hlt : (UInt8.ofNat c.toNat).toNat < 128 := by
          rw [UInt8.toNat_ofNat']
          omega
        rw [(utf8EncodeChar_of_ascii_mem hlt hmem).1] at hbytes
        have hrest : l.flatMap String.utf8EncodeChar = bytes := (List.cons.inj hbytes).2
        rw [← hrest, ← asBytes_ofList, fromUtf8_asBytes] at hb
        cases hb

/-- A plain character is decoded to itself. -/
theorem decodePath_cons {c : Char} (h : plainChar c) (l : List Char) :
    decodePath (c :: l) = (decodePath l).map (c :: ·) := by
  have hlt := plainChar_ascii h
  have hne : UInt8.ofNat c.toNat ≠ 37 := by
    intro hb
    have h37 := congrArg UInt8.toNat hb
    rw [UInt8.toNat_ofNat', Nat.mod_eq_of_lt (by omega)] at h37
    have hc : c = '%' := Char.ext (UInt32.toNat_inj.mp h37)
    rw [hc] at h
    exact absurd h (by decide)
  have hbytes : asBytes (String.ofList (c :: l)) =
      UInt8.ofNat c.toNat :: asBytes (String.ofList l) := by
    rw [asBytes_ofList, List.flatMap_cons, utf8EncodeChar_ascii hlt, ← asBytes_ofList]
    rfl
  unfold decodePath
  rw [hbytes, Percent.decode_cons_of_ne hne]
  cases Percent.decode (asBytes (String.ofList l)) with
  | none => rfl
  | some bytes =>
    rw [Option.map_some]
    dsimp only
    rw [fromUtf8_cons_ascii hlt]
    cases fromUtf8 bytes with
    | none => rfl
    | some t => simp [Except.map]

theorem decodePath_append {p : List Char} (h : ∀ c ∈ p, plainChar c) (l : List Char) :
    decodePath (p ++ l) = (decodePath l).map (p ++ ·) := by
  induction p with
  | nil =>
    rw [List.nil_append]
    cases decodePath l <;> rfl
  | cons c p ih =>
    rw [List.cons_append, decodePath_cons (h c (by simp)), ih fun d hd => h d (by simp [hd])]
    cases decodePath l <;> rfl

theorem decodePath_plain {p : List Char} (h : ∀ c ∈ p, plainChar c) : decodePath p = .ok p := by
  have hp := decodePath_append h []
  rw [List.append_nil] at hp
  rw [hp]
  have hnil : decodePath [] = .ok [] := by
    simpa [encodePath_toList] using decodePath_encodePath ""
  rw [hnil]
  simp [Except.map]

/-! ## Segments -/

theorem splitOn_append_of_not_mem {a b : List Char} (h : '/' ∉ a) :
    (a ++ b).splitOn '/' = (b.splitOn '/').modifyHead (a ++ ·) := by
  induction a with
  | nil =>
    rw [List.nil_append]
    cases b.splitOn '/' <;> rfl
  | cons c a ih =>
    have hc : (c == '/') = false := by
      simpa using fun e : c = '/' => h (by simp [e])
    rw [List.cons_append, List.splitOn_cons_eq_if_modifyHead, hc, ih fun hm => h (by simp [hm])]
    cases b.splitOn '/' <;> rfl

theorem splitOn_flatMap_encodeChar (l : List Char) :
    (l.flatMap encodeChar).splitOn '/' = (l.splitOn '/').map (·.flatMap encodeChar) := by
  induction l with
  | nil => rfl
  | cons c l ih =>
    rw [List.flatMap_cons, List.splitOn_cons_eq_if_modifyHead]
    by_cases hc : c = '/'
    · rw [hc, encodeChar_plain (by decide), List.singleton_append, List.splitOn_cons_eq_if_modifyHead, ih]
      rfl
    · have hnot : '/' ∉ encodeChar c := fun hm => hc (mem_encodeChar (.inl rfl) hm)
      have hne : (c == '/') = false := by simpa using hc
      rw [splitOn_append_of_not_mem hnot, ih, hne]
      cases l.splitOn '/' <;> rfl

/-- A character is a dot if it is written as one. -/
theorem flatMap_encodeChar_dots {l : List Char} {n : Nat}
    (h : l.flatMap encodeChar = List.replicate n '.') : l = List.replicate n '.' := by
  have hdot : ∀ c ∈ l, c = '.' := by
    intro c hc
    obtain ⟨x, xs, hx⟩ := List.exists_cons_of_ne_nil (encodeChar_ne_nil c)
    have hmem : x ∈ l.flatMap encodeChar := List.mem_flatMap.mpr ⟨c, hc, by simp [hx]⟩
    rw [h] at hmem
    obtain rfl := List.eq_of_mem_replicate hmem
    exact mem_encodeChar (.inr rfl) (by simp [hx])
  have hplain : ∀ c ∈ l, plainChar c := fun c hc => by rw [hdot c hc]; decide
  rw [← h, flatMap_encodeChar_plain hplain]

theorem relativeSegment_flatMap (l : List Char) :
    relativeSegment (l.flatMap encodeChar) = relativeSegment l := by
  have hseg : ∀ p : List Char, (p.flatMap encodeChar = ['.'] ↔ p = ['.']) ∧
      (p.flatMap encodeChar = ['.', '.'] ↔ p = ['.', '.']) := by
    intro p
    refine ⟨⟨fun h => flatMap_encodeChar_dots (n := 1) h, ?_⟩,
      ⟨fun h => flatMap_encodeChar_dots (n := 2) h, ?_⟩⟩
    · rintro rfl
      exact flatMap_encodeChar_plain (plain_of_all (by decide))
    · rintro rfl
      exact flatMap_encodeChar_plain (plain_of_all (by decide))
  unfold relativeSegment
  rw [splitOn_flatMap_encodeChar, List.any_map]
  congr 1
  funext p
  simp only [Function.comp_apply, (hseg p).1, (hseg p).2]

theorem relativeSegment_append (a b : List Char) :
    relativeSegment (a ++ '/' :: b) = (relativeSegment a || relativeSegment b) := by
  unfold relativeSegment
  rw [List.splitOn_append_cons_self, List.any_append]

end Proof
end Diffz
