import Diffz.Lib.Spans
import Diffz.Lib.Text

/-!
# The bytes of a text

A text is its bytes and no other's, and an ASCII byte among them is a character, where the text may be
cut.
-/

set_option autoImplicit false

namespace Diffz

/-- `str::as_bytes`. -/
def textBytes (s : List Char) : Bytes := s.flatMap String.utf8EncodeChar

variable {s t : List Char} {c : Char} {b : UInt8} {x y : Bytes}

@[simp] theorem textBytes_nil : textBytes [] = [] := rfl

@[simp] theorem textBytes_cons : textBytes (c :: s) = String.utf8EncodeChar c ++ textBytes s := rfl

@[simp] theorem textBytes_append (s t : List Char) :
    textBytes (s ++ t) = textBytes s ++ textBytes t := List.flatMap_append

@[simp] theorem length_textBytes (s : List Char) : (textBytes s).length = byteLen s := by
  induction s with
  | nil => rfl
  | cons c s ih => rw [textBytes_cons, List.length_append, String.length_utf8EncodeChar, ih]; rfl

theorem textBytes_injective (h : textBytes s = textBytes t) : s = t := by
  rw [textBytes, textBytes, ← asBytes_ofList, ← asBytes_ofList] at h
  have hfrom := congrArg fromUtf8 h
  rw [fromUtf8_asBytes, fromUtf8_asBytes] at hfrom
  exact String.ofList_inj.mp (Option.some.inj hfrom)

/-- **A text is cut at an ASCII byte.** -/
theorem textBytes_split (hb : b.toNat < 128) (hc : c.val.toNat = b.toNat)
    (h : textBytes s = x ++ b :: y) : ∃ u v, s = u ++ c :: v ∧ textBytes u = x ∧ textBytes v = y := by
  induction s generalizing x with
  | nil =>
    cases x
    all_goals cases h
  | cons d s ih =>
    rw [textBytes_cons, List.append_eq_append_iff] at h
    have hbyte : b ∈ String.utf8EncodeChar d → String.utf8EncodeChar d = [b] ∧ d = c := by
      intro hmem
      obtain ⟨hbytes, hd⟩ := utf8EncodeChar_of_ascii_mem hb hmem
      exact ⟨hbytes, Char.ext (UInt32.toNat_inj.mp (hd.trans hc.symm))⟩
    rcases h with ⟨z, rfl, hrest⟩ | ⟨z, hd, hrest⟩
    · obtain ⟨u, v, rfl, rfl, rfl⟩ := ih hrest
      exact ⟨d :: u, v, rfl, textBytes_cons, rfl⟩
    · cases z with
      | nil =>
        rw [List.append_nil] at hd
        obtain ⟨u, v, rfl, hu, rfl⟩ := ih (x := []) hrest.symm
        exact ⟨d :: u, v, rfl, by rw [textBytes_cons, hu, hd, List.append_nil], rfl⟩
      | cons b' z =>
        obtain ⟨rfl, rfl⟩ := List.cons.inj hrest
        obtain ⟨hbytes, rfl⟩ := hbyte (hd ▸ by simp)
        rw [hbytes] at hd
        -- The whole encoding is that byte, so there is nothing around it.
        cases x with
        | nil =>
          obtain ⟨-, rfl⟩ := List.cons.inj hd
          exact ⟨[], s, rfl, rfl, rfl⟩
        | cons b' x => exact absurd (congrArg List.length hd) (by simp)

end Diffz
