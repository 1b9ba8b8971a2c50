import Mathlib.Data.Set.Function
import Diffz.Core.Domain

/-!
# Digests distinguish what SHA-256 distinguishes

The hexadecimal text loses nothing, and neither does the length framing. What a result assumes of
the hash is therefore stated about the hash alone: `CollisionFree sha256 s`, no two of the byte
strings in `s` hash alike.
-/

set_option autoImplicit false

namespace Diffz
namespace Proof

/-- No two members of `s` have the same hash. -/
def CollisionFree (sha256 : Bytes → Bytes) (s : Set Bytes) : Prop := Set.InjOn sha256 s

theorem hexDigit_inj {m n : Nat} (hm : m < 16) (hn : n < 16) (h : hexDigit m = hexDigit n) :
    m = n := by
  have all : ∀ a b : Fin 16, hexDigit a = hexDigit b → a = b := by decide
  exact congrArg Fin.val (all ⟨m, hm⟩ ⟨n, hn⟩ h)

theorem hex_injective : Function.Injective hex := by
  intro a b h
  have hl : (a.flatMap fun x => [hexDigit (x.toNat / 16), hexDigit (x.toNat % 16)]) =
      b.flatMap fun x => [hexDigit (x.toNat / 16), hexDigit (x.toNat % 16)] :=
    String.ofList_injective h
  clear h
  induction a generalizing b with
  | nil =>
    cases b with
    | nil => rfl
    | cons y b => cases hl
  | cons x a ih =>
    cases b with
    | nil => cases hl
    | cons y b =>
      simp only [List.flatMap_cons, List.cons_append, List.nil_append, List.cons.injEq] at hl
      obtain ⟨h1, h2, h3⟩ := hl
      have hx := x.toNat_lt
      have hy := y.toNat_lt
      have hdiv := hexDigit_inj (by omega) (by omega) h1
      have hmod := hexDigit_inj (by omega) (by omega) h2
      have hxy : x = y := UInt8.toNat_inj.mp (by omega)
      rw [hxy, ih h3]

theorem toLeBytes_size (n : Nat) : (toLeBytes n).length = 8 := by
  simp [toLeBytes]

/-- After the same tag, the framing loses nothing. -/
theorem framed_pair_inj {tag a b : Bytes} (h : framed [tag, a] = framed [tag, b]) : a = b := by
  unfold framed at h
  simp only [List.flatMap_cons, List.flatMap_nil, List.append_nil, List.append_assoc] at h
  obtain ⟨-, h⟩ := List.append_inj h rfl
  obtain ⟨-, h⟩ := List.append_inj h rfl
  obtain ⟨-, h⟩ := List.append_inj h (by rw [toLeBytes_size, toLeBytes_size])
  exact h

theorem toLeBytes_inj {m n : Nat} (hm : m < 2 ^ 64) (hn : n < 2 ^ 64)
    (h : toLeBytes m = toLeBytes n) : m = n := by
  have hbyte : ∀ k < 8, m / 256 ^ k % 256 = n / 256 ^ k % 256 := by
    intro k hk
    have hk := List.map_inj_left.mp h k (List.mem_range.mpr hk)
    simpa using congrArg UInt8.toNat hk
  have h0 := hbyte 0 (by omega)
  have h1 := hbyte 1 (by omega)
  have h2 := hbyte 2 (by omega)
  have h3 := hbyte 3 (by omega)
  have h4 := hbyte 4 (by omega)
  have h5 := hbyte 5 (by omega)
  have h6 := hbyte 6 (by omega)
  have h7 := hbyte 7 (by omega)
  omega

/-- The framing loses nothing while lengths fit in a `u64`. -/
theorem framed_cons_inj {a b : Bytes} {as bs : List Bytes} (ha : a.length < 2 ^ 64)
    (hb : b.length < 2 ^ 64) (h : framed (a :: as) = framed (b :: bs)) :
    a = b ∧ framed as = framed bs := by
  unfold framed at h
  simp only [List.flatMap_cons, List.append_assoc] at h
  obtain ⟨hlen, h⟩ := List.append_inj h (by rw [toLeBytes_size, toLeBytes_size])
  exact List.append_inj h (toLeBytes_inj ha hb hlen)

/-- **The framing is injective.** -/
theorem framed_inj {as bs : List Bytes} (ha : ∀ a ∈ as, a.length < 2 ^ 64)
    (hb : ∀ b ∈ bs, b.length < 2 ^ 64) (h : framed as = framed bs) : as = bs := by
  induction as generalizing bs with
  | nil =>
    cases bs with
    | nil => rfl
    | cons b bs => cases h
  | cons a as ih =>
    cases bs with
    | nil => cases h
    | cons b bs =>
      rw [List.forall_mem_cons] at ha hb
      obtain ⟨rfl, hrest⟩ := framed_cons_inj ha.1 hb.1 h
      rw [ih ha.2 hb.2 hrest]

theorem CollisionFree.digest {sha256 : Bytes → Bytes} {s : Set Bytes}
    (hc : CollisionFree sha256 s) {a b : List Bytes} (ha : framed a ∈ s) (hb : framed b ∈ s)
    (h : digest sha256 a = digest sha256 b) : framed a = framed b :=
  hc ha hb (hex_injective h)

end Proof
end Diffz
