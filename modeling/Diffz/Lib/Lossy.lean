import Diffz.Lib.Utf8

/-!
# Lossy UTF-8

`String::from_utf8_lossy` reads any bytes. A sequence that is whole is its character; what there is
of a sequence that breaks off is one U+FFFD, and so is a byte with which no sequence begins. A text
is read as itself, and where bytes are cut only the last character can be another than in the whole.
-/

set_option autoImplicit false

namespace Diffz

namespace Lossy

/-- How long a sequence is whose first byte is `b`; no sequence begins with a byte of width zero. -/
def width (b : UInt8) : Nat :=
  if b.toNat < 0x80 then 1
  else if 0xC2 ≤ b.toNat ∧ b.toNat ≤ 0xDF then 2
  else if 0xE0 ≤ b.toNat ∧ b.toNat ≤ 0xEF then 3
  else if 0xF0 ≤ b.toNat ∧ b.toNat ≤ 0xF4 then 4
  else 0

def isContinuation (c : UInt8) : Bool := decide (0x80 ≤ c.toNat) && decide (c.toNat ≤ 0xBF)

/-- Whether `c` may be the second byte of a sequence. The first bytes that are set apart would
otherwise begin overlong sequences, surrogates and numbers past U+10FFFF. -/
def mayFollow (b c : UInt8) : Bool :=
  isContinuation c &&
    if b.toNat = 0xE0 then decide (0xA0 ≤ c.toNat)
    else if b.toNat = 0xED then decide (c.toNat ≤ 0x9F)
    else if b.toNat = 0xF0 then decide (0x90 ≤ c.toNat)
    else if b.toNat = 0xF4 then decide (c.toNat ≤ 0x8F)
    else true

/-- The bytes after `b` that belong to its sequence, as far as there are any. -/
def sequel (b : UInt8) (rest : Bytes) : Bytes :=
  match rest.take (width b - 1) with
  | [] => []
  | c :: cs => if mayFollow b c then c :: cs.takeWhile isContinuation else []

/-- The number that a whole sequence stands for. -/
def scalar (b : UInt8) : Bytes → Nat
  | [] => b.toNat
  | [c] => b.toNat % 32 * 64 + c.toNat % 64
  | [c, d] => (b.toNat % 16 * 64 + c.toNat % 64) * 64 + d.toNat % 64
  | c :: d :: e :: _ => ((b.toNat % 8 * 64 + c.toNat % 64) * 64 + d.toNat % 64) * 64 + e.toNat % 64

/-- What the sequence at the front is read as. -/
def readChar (b : UInt8) (rest : Bytes) : Char :=
  if (sequel b rest).length + 1 = width b then Char.ofNat (scalar b (sequel b rest)) else '\uFFFD'

/-- The loop over the bytes; each turn takes at least one. -/
def decode : Nat → Bytes → List Char
  | 0, _ => []
  | _ + 1, [] => []
  | fuel + 1, b :: rest =>
    readChar b rest :: decode fuel (rest.drop (sequel b rest).length)

end Lossy

/-- `String::from_utf8_lossy`. -/
def fromUtf8Lossy (b : Bytes) : List Char := Lossy.decode b.length b

namespace Lossy

variable {b : UInt8} {rest x y : Bytes}

theorem sequel_initial (b : UInt8) (rest : Bytes) : sequel b rest <+: rest := by
  unfold sequel
  split
  · exact List.nil_prefix
  · rename_i c cs hcs
    refine List.IsPrefix.trans ?_ (List.take_prefix (width b - 1) rest)
    rw [hcs]
    split
    · exact (List.prefix_cons_inj c).mpr (List.takeWhile_prefix isContinuation)
    · exact List.nil_prefix

/-- More bytes change a sequence only where it lacked some. -/
theorem sequel_append (b : UInt8) (rest y : Bytes) :
    sequel b (rest ++ y) = sequel b rest ∨
      (sequel b rest = rest ∧ rest.length + 1 < width b) := by
  by_cases hlen : width b - 1 ≤ rest.length
  · left
    rw [sequel, sequel, List.take_append_of_le_length hlen]
  · have hlack : rest.length + 1 < width b := by omega
    have htake : rest.take (width b - 1) = rest := List.take_of_length_le (by omega)
    cases rest with
    | nil => exact Or.inr ⟨by rw [sequel, List.take_nil], hlack⟩
    | cons c cs =>
      obtain ⟨k, hk⟩ : ∃ k, width b - 1 = k + 1 := ⟨width b - 2, by omega⟩
      have hmore : ((c :: cs) ++ y).take (width b - 1) = c :: (cs ++ y.take (k - cs.length)) := by
        rw [hk, List.cons_append, List.take_succ_cons, List.take_append, List.take_of_length_le]
        rw [List.length_cons] at hlen
        omega
      rw [sequel, sequel, hmore, htake]
      dsimp only
      by_cases hc : mayFollow b c = true
      · rw [if_pos hc, if_pos hc]
        by_cases hall : ∀ d ∈ cs, isContinuation d = true
        · exact Or.inr ⟨by rw [List.takeWhile_eq_self_iff.mpr hall], hlack⟩
        · left
          rw [List.takeWhile_append, if_neg]
          intro hfull
          exact hall (List.takeWhile_eq_self_iff.mp
            ((List.takeWhile_prefix isContinuation).eq_of_length hfull))
      · rw [if_neg hc, if_neg hc]
        exact Or.inl rfl

theorem decode_append {n m : Nat} (hn : x.length ≤ n) (hm : (x ++ y).length ≤ m) :
    ∃ shared, shared <+: decode m (x ++ y) ∧
      (decode n x = shared ∨ decode n x = shared ++ ['\uFFFD']) := by
  induction n generalizing x m with
  | zero => exact ⟨[], List.nil_prefix, Or.inl rfl⟩
  | succ n ih =>
    cases x with
    | nil => exact ⟨[], List.nil_prefix, Or.inl rfl⟩
    | cons b rest =>
      cases m with
      | zero => exact absurd hm (by simp)
      | succ m =>
        rw [List.cons_append, decode, decode]
        rcases sequel_append b rest y with hsame | ⟨hall, hlack⟩
        · have hle : (sequel b rest).length ≤ rest.length := (sequel_initial b rest).length_le
          have hread : readChar b (rest ++ y) = readChar b rest := by rw [readChar, readChar, hsame]
          simp only [List.length_cons, List.length_append, List.cons_append] at hn hm
          obtain ⟨shared, hshared, heq⟩ :=
            ih (x := rest.drop (sequel b rest).length) (m := m)
              (by rw [List.length_drop]; omega)
              (by rw [List.length_append, List.length_drop]; omega)
          rw [hread, hsame, List.drop_append_of_le_length hle]
          refine ⟨readChar b rest :: shared, (List.prefix_cons_inj _).mpr hshared, ?_⟩
          rcases heq with heq | heq
          · exact Or.inl (by rw [heq])
          · exact Or.inr (by rw [heq, List.cons_append])
        · -- The sequence ends with the bytes, and it is not whole.
          refine ⟨[], List.nil_prefix, Or.inr ?_⟩
          have hnil : decode n ([] : Bytes) = [] := by cases n <;> rfl
          rw [readChar, hall, if_neg (by omega), List.drop_length, hnil, List.nil_append]

/-! ## Texts -/

theorem toNat_ofNat {n : Nat} (h : n < 256) : (UInt8.ofNat n).toNat = n := by
  rw [UInt8.toNat_ofNat', Nat.mod_eq_of_lt h]

theorem continuation_ofNat (n : Nat) : isContinuation (UInt8.ofNat (n % 64 + 128)) = true := by
  have hmod := Nat.mod_lt n (show 64 > 0 by decide)
  rw [isContinuation, toNat_ofNat (by omega), decide_eq_true (by omega), decide_eq_true (by omega)]
  rfl

theorem sequel_whole {c : UInt8} {cs : Bytes} (hw : width b = cs.length + 2)
    (hc : mayFollow b c = true) (hcs : ∀ d ∈ cs, isContinuation d = true) (rest : Bytes) :
    sequel b (c :: cs ++ rest) = c :: cs := by
  have htake : (c :: cs ++ rest).take (width b - 1) = c :: cs := by
    rw [hw]
    exact List.take_left' rfl
  rw [sequel, htake]
  dsimp only
  rw [if_pos hc, List.takeWhile_eq_self_iff.mpr hcs]

/-- The bytes of a character are a whole sequence, which stands for it. -/
theorem encode_whole (c : Char) (rest : Bytes) : ∃ b cs, String.utf8EncodeChar c = b :: cs ∧
    sequel b (cs ++ rest) = cs ∧ cs.length + 1 = width b ∧ scalar b cs = c.val.toNat := by
  have hvalid : c.val.toNat < 0xD800 ∨ (0xDFFF < c.val.toNat ∧ c.val.toNat < 0x110000) := c.valid
  unfold String.utf8EncodeChar
  generalize c.val.toNat = v at hvalid ⊢
  dsimp only
  have hlast : (UInt8.ofNat (v % 64 + 128)).toNat = v % 64 + 128 := toNat_ofNat (by omega)
  have hmid : (UInt8.ofNat (v / 64 % 64 + 128)).toNat = v / 64 % 64 + 128 := toNat_ofNat (by omega)
  split
  · have hw : width (UInt8.ofNat v) = 1 := by rw [width, toNat_ofNat (by omega), if_pos (by omega)]
    refine ⟨_, [], rfl, ?_, hw.symm, toNat_ofNat (by omega)⟩
    rw [sequel, hw]
    rfl
  split
  · have hb : (UInt8.ofNat (v / 64 % 32 + 192)).toNat = v / 64 + 192 := by
      rw [toNat_ofNat (by omega)]
      omega
    have hw : width (UInt8.ofNat (v / 64 % 32 + 192)) = 2 := by
      rw [width, hb, if_neg (by omega), if_pos (by omega)]
    refine ⟨_, _, rfl, sequel_whole hw ?_ (List.forall_mem_nil _) rest, hw.symm, ?_⟩
    · rw [mayFollow, continuation_ofNat, hb, if_neg (by omega), if_neg (by omega),
        if_neg (by omega), if_neg (by omega)]
      rfl
    · rw [scalar, hb, hlast]
      omega
  split
  · have hb : (UInt8.ofNat (v / 4096 % 16 + 224)).toNat = v / 4096 + 224 := by
      rw [toNat_ofNat (by omega)]
      omega
    have hw : width (UInt8.ofNat (v / 4096 % 16 + 224)) = 3 := by
      rw [width, hb, if_neg (by omega), if_neg (by omega), if_pos (by omega)]
    refine ⟨_, _, rfl, sequel_whole hw ?_
      (List.forall_mem_singleton.mpr (continuation_ofNat v)) rest, hw.symm, ?_⟩
    · -- Three bytes leave out the numbers of two, and the surrogates.
      rw [mayFollow, continuation_ofNat, hb, hmid]
      split
      · rw [decide_eq_true (by omega)]
        rfl
      · split
        · rw [decide_eq_true (by omega)]
          rfl
        · rw [if_neg (by omega), if_neg (by omega)]
          rfl
    · rw [scalar, hb, hmid, hlast]
      omega
  · have hb : (UInt8.ofNat (v / 262144 % 8 + 240)).toNat = v / 262144 + 240 := by
      rw [toNat_ofNat (by omega)]
      omega
    have hnext : (UInt8.ofNat (v / 4096 % 64 + 128)).toNat = v / 4096 % 64 + 128 :=
      toNat_ofNat (by omega)
    have hw : width (UInt8.ofNat (v / 262144 % 8 + 240)) = 4 := by
      rw [width, hb, if_neg (by omega), if_neg (by omega), if_neg (by omega), if_pos (by omega)]
    refine ⟨_, _, rfl, sequel_whole hw ?_
      (List.forall_mem_cons.mpr ⟨continuation_ofNat (v / 64),
        List.forall_mem_singleton.mpr (continuation_ofNat v)⟩) rest, hw.symm, ?_⟩
    · -- Four bytes leave out the numbers of three, and those past U+10FFFF.
      rw [mayFollow, continuation_ofNat, hb, hnext, if_neg (by omega), if_neg (by omega)]
      split
      · rw [decide_eq_true (by omega)]
        rfl
      · split
        · rw [decide_eq_true (by omega)]
          rfl
        · rfl
    · rw [scalar, hb, hnext, hmid, hlast]
      omega

theorem decode_textBytes (s : List Char) {n : Nat} (h : (textBytes s).length ≤ n) :
    decode n (textBytes s) = s := by
  induction s generalizing n with
  | nil => cases n <;> rfl
  | cons c s ih =>
    obtain ⟨b, cs, hbytes, hseq, hw, hv⟩ := encode_whole c (textBytes s)
    rw [textBytes_cons, hbytes, List.cons_append] at h ⊢
    cases n with
    | zero => exact absurd h (by simp)
    | succ n =>
      have hrest : (textBytes s).length ≤ n := by
        simp only [List.length_cons, List.length_append] at h
        omega
      rw [decode, readChar, hseq, if_pos hw, hv, List.drop_left, ih hrest]
      exact congrArg (· :: s) (Char.ofNat_toNat c)

end Lossy

/-- **A text is read as itself.** -/
theorem fromUtf8Lossy_textBytes (s : List Char) : fromUtf8Lossy (textBytes s) = s :=
  Lossy.decode_textBytes s le_rfl

/-- **Of bytes that are cut, all but the last character is read as in the whole.** -/
theorem fromUtf8Lossy_append (x y : Bytes) : ∃ shared, shared <+: fromUtf8Lossy (x ++ y) ∧
    (fromUtf8Lossy x = shared ∨ fromUtf8Lossy x = shared ++ ['\uFFFD']) :=
  Lossy.decode_append le_rfl le_rfl

end Diffz
