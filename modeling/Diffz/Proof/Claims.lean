import Diffz.Adapters.Entire
import Diffz.Lib.Base64
import Diffz.Lib.Fallible

/-!
# Claims are decoded exactly

What was put out and what is in the accumulator are together the numeral that was read (`Exact`).
Every turn of the loop keeps this, so no bit is lost, and at the end the accumulator can be told
from the zero bits an encoder fills up with.
-/

set_option autoImplicit false

namespace Diffz
namespace Proof
namespace Claims

open Entire Base64

variable {acc acc' : Accumulator} {bytes : Bytes} {ds : List Nat}

/-! ## Digits -/

theorem base64Digit_eq_some_iff {byte d : UInt8} :
    base64Digit byte = some d ↔ d.toNat < 64 ∧ byte = letterByte d.toNat := by
  have hread : ∀ n : Fin 256, (base64Digit (UInt8.ofNat n.val)).all (fun e =>
      e.toNat < 64 ∧ UInt8.ofNat n.val = letterByte e.toNat) = true := by
    decide +kernel
  have hwritten : ∀ n : Fin 64, base64Digit (letterByte n.val) = some (UInt8.ofNat n.val) := by
    decide +kernel
  constructor
  · intro h
    have hbyte := hread ⟨byte.toNat, byte.toNat_lt⟩
    rw [UInt8.ofNat_toNat, h] at hbyte
    exact of_decide_eq_true hbyte
  · rintro ⟨hd, rfl⟩
    have hdigit := hwritten ⟨d.toNat, hd⟩
    rw [UInt8.ofNat_toNat] at hdigit
    exact hdigit

/-! ## The words -/

/-- The shift drops nothing, and the digit finds zero bits. -/
theorem shifted_toNat {value : UInt32} {d : UInt8} (hv : value.toNat < 64) (hd : d.toNat < 64) :
    ((value <<< 6) ||| d.toUInt32).toNat = value.toNat * 64 + d.toNat := by
  rw [UInt32.toNat_or, UInt32.toNat_shiftLeft, UInt8.toNat_toUInt32]
  have hshift : value.toNat <<< ((6 : UInt32).toNat % 32) % 2 ^ 32 = 64 * value.toNat := by
    rw [Nat.shiftLeft_eq]
    have hsix : 2 ^ ((6 : UInt32).toNat % 32) = 64 := rfl
    rw [hsix, Nat.mod_eq_of_lt (by omega), Nat.mul_comm]
  rw [hshift, ← Nat.two_pow_add_eq_or_of_lt (i := 6) hd value.toNat]
  omega

theorem mask_toNat {k : Nat} (hk : k < 8) :
    (((1 : UInt32) <<< UInt32.ofNat k) - 1).toNat = 2 ^ k - 1 := by
  have all : ∀ k : Fin 8, (((1 : UInt32) <<< UInt32.ofNat k.val) - 1).toNat = 2 ^ k.val - 1 := by
    decide
  exact all ⟨k, hk⟩

theorem kept_toNat (value : UInt32) {k : Nat} (hk : k < 8) :
    (value &&& (((1 : UInt32) <<< UInt32.ofNat k) - 1)).toNat = value.toNat % 2 ^ k := by
  rw [UInt32.toNat_and, mask_toNat hk, Nat.and_two_pow_sub_one_eq_mod]

theorem putOut_toNat {value : UInt32} {k : Nat} (hk : k < 8) (hv : value.toNat / 2 ^ k < 256) :
    (value >>> UInt32.ofNat k).toUInt8.toNat = value.toNat / 2 ^ k := by
  have hshift : (UInt32.ofNat k).toNat % 32 = k := by
    rw [UInt32.toNat_ofNat']
    omega
  rw [UInt32.toNat_toUInt8, UInt32.toNat_shiftRight, hshift, Nat.shiftRight_eq_div_pow]
  exact Nat.mod_eq_of_lt hv

/-! ## The loop -/

/-- The bits of the digits read so far are those that were put out and those kept, in order. -/
structure Exact (ds : List Nat) (acc : Accumulator) : Prop where
  count : 8 * acc.out.length + acc.bits = 6 * ds.length
  few : acc.bits < 8
  below : acc.value.toNat < 2 ^ acc.bits
  kept : bytesValue acc.out * 2 ^ acc.bits + acc.value.toNat = numeral 64 ds

theorem Exact.empty : Exact [] .empty where
  count := rfl
  few := by decide
  below := by decide
  kept := rfl

/-- There are an even number of bits in hand, so at most six. -/
theorem Exact.bits_le (h : Exact ds acc) : acc.bits ≤ 6 := by
  have hcount := h.count
  have hfew := h.few
  omega

theorem Exact.value_lt (h : Exact ds acc) : acc.value.toNat < 64 :=
  lt_of_lt_of_le h.below (Nat.pow_le_pow_right (by decide) h.bits_le)

theorem feed_digit {byte d : UInt8} (hb : base64Digit byte = some d) (h : Exact ds acc) :
    ∃ acc', feed acc byte = .ok acc' ∧ Exact (ds ++ [d.toNat]) acc' := by
  have hd := (base64Digit_eq_some_iff.mp hb).1
  have hv := shifted_toNat h.value_lt hd
  have hcount := h.count
  have hfew := h.few
  have hbelow := h.below
  have hkept := h.kept
  unfold feed
  rw [hb]
  dsimp only
  generalize (acc.value <<< 6) ||| d.toUInt32 = value at hv ⊢
  split
  · rename_i hbits
    obtain ⟨k, hk⟩ : ∃ k, acc.bits = k + 2 := ⟨acc.bits - 2, by omega⟩
    have hsub : acc.bits + 6 - 8 = k := by omega
    have hpow : 2 ^ acc.bits = 2 ^ k * 4 := by
      rw [hk, pow_succ, pow_succ, Nat.mul_assoc]
    rw [hpow] at hbelow hkept
    have hout : value.toNat / 2 ^ k < 256 := by
      rw [Nat.div_lt_iff_lt_mul (by positivity), hv]
      omega
    rw [hsub]
    refine ⟨_, rfl, ?_, by dsimp only; omega, ?_, ?_⟩
    · simp only [List.length_append, List.length_singleton]
      omega
    · dsimp only
      rw [kept_toNat value (by omega)]
      exact Nat.mod_lt _ (by positivity)
    · dsimp only
      rw [bytesValue_concat, putOut_toNat (by omega) hout, kept_toNat value (by omega),
        numeral_concat, ← hkept]
      have hdiv := Nat.div_add_mod' value.toNat (2 ^ k)
      rw [Nat.add_mul, Nat.add_assoc, hdiv, hv]
      ring
  · rename_i hbits
    -- The first digit of a group: nothing is put out.
    have hzero : acc.bits = 0 := by omega
    rw [hzero] at hbelow hkept hcount ⊢
    refine ⟨_, rfl, ?_, by dsimp only; omega, ?_, ?_⟩
    · simp only [List.length_append, List.length_singleton]
      omega
    · dsimp only
      rw [hv]
      omega
    · dsimp only
      rw [numeral_concat, ← hkept, hv]
      ring

/-- What has been read, and where it leaves the loop. -/
structure Read (bytes : Bytes) (ds : List Nat) (acc : Accumulator) : Prop where
  letters : bytes = ds.map letterByte
  digits : ∀ d ∈ ds, d < 64
  exact : Exact ds acc

theorem feed_run {ds₀ : List Nat} (h₀ : Exact ds₀ acc) (h : bytes.foldlM feed acc = .ok acc') :
    ∃ ds, bytes = ds.map letterByte ∧ (∀ d ∈ ds, d < 64) ∧ Exact (ds₀ ++ ds) acc' := by
  induction bytes generalizing acc ds₀ with
  | nil =>
    cases h
    refine ⟨[], rfl, fun _ hd => absurd hd List.not_mem_nil, ?_⟩
    rw [List.append_nil]
    exact h₀
  | cons byte bytes ih =>
    rw [List.foldlM_cons] at h
    obtain ⟨acc₁, hfeed, hrest⟩ := ok_of_bind h
    cases hb : base64Digit byte with
    | none =>
      rw [feed, hb] at hfeed
      cases hfeed
    | some d =>
      obtain ⟨hd, hbyte⟩ := base64Digit_eq_some_iff.mp hb
      obtain ⟨acc₂, hfeed', h₁⟩ := feed_digit hb h₀
      obtain rfl : acc₂ = acc₁ := Except.ok.inj (hfeed'.symm.trans hfeed)
      obtain ⟨ds, rfl, hds, hexact⟩ := ih h₁ hrest
      refine ⟨d.toNat :: ds, ?_, List.forall_mem_cons.mpr ⟨hd, hds⟩, ?_⟩
      · rw [List.map_cons, ← hbyte]
      · rw [List.append_cons]
        exact hexact

theorem feed_reads (h : bytes.foldlM feed .empty = .ok acc) : ∃ ds, Read bytes ds acc := by
  obtain ⟨ds, hletters, hdigits, hexact⟩ := feed_run .empty h
  exact ⟨ds, hletters, hdigits, hexact⟩

/-- Digits are never refused. -/
theorem feed_total {ds₀ : List Nat} (h₀ : Exact ds₀ acc) (hds : ∀ d ∈ ds, d < 64) :
    ∃ acc', (ds.map letterByte).foldlM feed acc = .ok acc' := by
  induction ds generalizing acc ds₀ with
  | nil => exact ⟨acc, rfl⟩
  | cons d ds ih =>
    rw [List.forall_mem_cons] at hds
    have hd : (UInt8.ofNat d).toNat = d := by
      rw [UInt8.toNat_ofNat']
      omega
    have hb : base64Digit (letterByte d) = some (UInt8.ofNat d) := by
      rw [base64Digit_eq_some_iff, hd]
      exact ⟨hds.1, rfl⟩
    obtain ⟨acc₁, hfeed, h₁⟩ := feed_digit hb h₀
    obtain ⟨acc', hrest⟩ := ih h₁ hds.2
    refine ⟨acc', ?_⟩
    rw [List.map_cons, List.foldlM_cons, hfeed]
    exact hrest

/-! ## The end of the input -/

/-- The two tests leave one digit string for what was put out: its sextets. -/
theorem Read.done_iff (h : Read bytes ds acc) :
    ¬(acc.bits = 6 ∨ acc.value ≠ 0) ↔ ds = sextets acc.out := by
  have hcount := h.exact.count
  have hle := h.exact.bits_le
  have hlen := sextets_length acc.out
  have hfill : filling acc.out.length < 6 := Nat.mod_lt _ (by decide)
  rw [not_or, not_not]
  constructor
  · rintro ⟨hbits, hvalue⟩
    have heq : acc.bits = filling acc.out.length := by
      omega
    apply numeral_inj (by decide) (by omega) h.digits (sextets_lt acc.out)
    have hkept := h.exact.kept
    rw [hvalue, heq] at hkept
    rw [numeral_sextets, ← hkept]
    rfl
  · intro hds
    rw [hds] at hcount
    have heq : acc.bits = filling acc.out.length := by
      omega
    refine ⟨by omega, ?_⟩
    have hkept := h.exact.kept
    rw [hds, numeral_sextets, heq] at hkept
    exact UInt32.toNat_inj.mp (Nat.add_left_cancel hkept)

/-- What was put out for the sextets of a byte string is the byte string. -/
theorem Exact.out_eq {b : Bytes} (h : Exact (sextets b) acc) : acc.out = b := by
  have hcount := h.count
  have hle := h.bits_le
  have hkept := h.kept
  have hbelow := h.below
  have hlen := sextets_length b
  have hfill : filling b.length < 6 := Nat.mod_lt _ (by decide)
  have heq : acc.bits = filling b.length := by
    omega
  rw [numeral_sextets, heq] at hkept
  rw [heq] at hbelow
  apply bytesValue_inj (by omega)
  have hpos : 0 < 2 ^ filling b.length := by
    positivity
  calc bytesValue acc.out
    _ = (acc.value.toNat + bytesValue acc.out * 2 ^ filling b.length) / 2 ^ filling b.length := by
      rw [Nat.add_mul_div_right _ _ hpos, Nat.div_eq_of_lt hbelow, Nat.zero_add]
    _ = bytesValue b := by
      rw [Nat.add_comm, hkept, Nat.mul_div_cancel _ hpos]

theorem letterByte_inj {d e : Nat} (hd : d < 64) (he : e < 64)
    (h : letterByte d = letterByte e) : d = e := by
  have hback : ∀ n : Fin 64, (base64Digit (letterByte n.val)).map UInt8.toNat = some n.val := by
    decide +kernel
  have hsame := hback ⟨d, hd⟩
  rw [h, hback ⟨e, he⟩] at hsame
  exact (Option.some.inj hsame).symm

theorem letterByte_injOn (hds : ∀ d ∈ ds, d < 64) {es : List Nat} (hes : ∀ e ∈ es, e < 64)
    (h : ds.map letterByte = es.map letterByte) : ds = es := by
  induction ds generalizing es with
  | nil =>
    cases es with
    | nil => rfl
    | cons e es => cases h
  | cons d ds ih =>
    cases es with
    | nil => cases h
    | cons e es =>
      rw [List.forall_mem_cons] at hds hes
      obtain ⟨hhead, htail⟩ := List.cons_eq_cons.mp h
      obtain rfl := letterByte_inj hds.1 hes.1 hhead
      rw [ih hds.2 hes.2 htail]

theorem decodeBase64url_base64url (b : Bytes) : decodeBase64url (base64url b) = .ok b := by
  obtain ⟨acc, hrun⟩ := feed_total .empty (sextets_lt b)
  obtain ⟨ds, hread⟩ := feed_reads hrun
  obtain rfl := letterByte_injOn (sextets_lt b) hread.digits hread.letters
  have hout := hread.exact.out_eq
  have hdone := hread.done_iff.mpr (by rw [hout])
  unfold decodeBase64url
  rw [asBytes_base64url, hrun, ok_bind, if_neg hdone, hout]

theorem eq_base64url_of_decodeBase64url {s : String} {b : Bytes}
    (h : decodeBase64url s = .ok b) : s = base64url b := by
  unfold decodeBase64url at h
  obtain ⟨acc, hrun, hend⟩ := ok_of_bind h
  obtain ⟨ds, hread⟩ := feed_reads hrun
  split at hend
  · cases hend
  · rename_i hdone
    cases hend
    have hbytes := hread.letters
    rw [hread.done_iff.mp hdone, ← asBytes_base64url] at hbytes
    have hread := congrArg fromUtf8 hbytes
    rw [fromUtf8_asBytes, fromUtf8_asBytes] at hread
    exact Option.some.inj hread

/-- **Claims are decoded exactly.** The base64url of a byte string is decoded to it, and nothing
else is. In every turn of the loop the accumulator and the bytes put out are what was read, and the shift
of the `u32` is the product it stands for. -/
theorem decodeBase64url_exact :
    (∀ b, decodeBase64url (base64url b) = .ok b) ∧
    (∀ s b, decodeBase64url s = .ok b → s = base64url b) ∧
    ∀ bytes acc, bytes.foldlM feed .empty = .ok acc →
      (∃ ds, Read bytes ds acc) ∧
      ∀ d : UInt8, d.toNat < 64 →
        ((acc.value <<< 6) ||| d.toUInt32).toNat = acc.value.toNat * 64 + d.toNat := by
  refine ⟨decodeBase64url_base64url, fun _ _ => eq_base64url_of_decodeBase64url, ?_⟩
  intro bytes acc h
  obtain ⟨ds, hread⟩ := feed_reads h
  exact ⟨⟨ds, hread⟩, fun d hd => shifted_toNat hread.exact.value_lt hd⟩

theorem shortClaims_exact : "QUI" = base64url [65, 66] :=
  decodeBase64url_exact.2.1 "QUI" [65, 66] (by decide +kernel)

/-- A last digit alone, a bit that is not zero past the last byte, and padding. -/
example : (["QUI", "QUJ", "Q", "QR", "QUI="].map fun s => (decodeBase64url s).toOption) =
    [some [65, 66], none, none, none, none] := by
  decide +kernel

end Claims
end Proof
end Diffz
