import Diffz.Lib.Spans
import Diffz.Lib.Text

/-!
# The lines of a text of bytes

`Lines` says where each line of a text begins and ends: a line ends before its LF, or before its
CRLF, and the last one at the end of the text. A range of the text is `clip`ped to its lines, and
what is clipped off are the terminators.
-/

set_option autoImplicit false

namespace Diffz

/-- The bounds of the lines of a text that begins at `p`. -/
inductive Lines : Nat → Bytes → List (Nat × Nat) → Prop
  | last {p : Nat} {text : Bytes} (h : 10 ∉ text) : Lines p text [(p, p + text.length)]
  | lf {p : Nat} {line text : Bytes} {bounds : List (Nat × Nat)} (h : 10 ∉ line)
      (hcr : line.getLast? ≠ some 13) (rest : Lines (p + line.length + 1) text bounds) :
      Lines p (line ++ 10 :: text) ((p, p + line.length) :: bounds)
  | crlf {p : Nat} {line text : Bytes} {bounds : List (Nat × Nat)} (h : 10 ∉ line)
      (rest : Lines (p + line.length + 2) text bounds) :
      Lines p (line ++ 13 :: 10 :: text) ((p, p + line.length) :: bounds)

/-- The byte at `q` is part of an LF or a CRLF. -/
def Terminator (text : Bytes) (q : Nat) : Prop :=
  text[q]? = some 10 ∨ text[q]? = some 13 ∧ text[q + 1]? = some 10

instance (text : Bytes) (q : Nat) : Decidable (Terminator text q) :=
  inferInstanceAs (Decidable (_ ∨ _))

/-- The part of a range that is in a line, counted from where the line begins. -/
def clip (r : Span) (b : Nat × Nat) : Option Span :=
  if max r.start b.1 < min r.stop b.2 then
    some ⟨max r.start b.1 - b.1, min r.stop b.2 - b.1⟩
  else none

variable {p q : Nat} {text line : Bytes} {bounds : List (Nat × Nat)} {b : Nat × Nat} {r s : Span}

/-! ## Terminators -/

/-- Only at the joint can a line without LF be part of a terminator. -/
theorem not_terminator_of_not_mem {rest : Bytes} (h : 10 ∉ line)
    (hjoint : rest.head? = some 10 → line.getLast? ≠ some 13) (hq : q < line.length) :
    ¬ Terminator (line ++ rest) q := by
  have hat : (line ++ rest)[q]? = some (line)[q] := by
    rw [List.getElem?_append_left hq, List.getElem?_eq_getElem hq]
  rintro (hlf | ⟨hcr, hlf⟩)
  · rw [hat] at hlf
    exact h (Option.some.inj hlf ▸ List.getElem_mem hq)
  · by_cases hlast : q + 1 < line.length
    · rw [List.getElem?_append_left hlast, List.getElem?_eq_getElem hlast] at hlf
      exact h (Option.some.inj hlf ▸ List.getElem_mem hlast)
    · have hq' : q + 1 = line.length := by omega
      rw [List.getElem?_append_right (by omega), hq', Nat.sub_self, ← List.head?_eq_getElem?] at hlf
      apply hjoint hlf
      rw [List.getLast?_eq_getElem?, ← hq', Nat.add_sub_cancel, List.getElem?_eq_getElem hq, ← hat,
        hcr]

theorem terminator_append (line rest : Bytes) (q : Nat) :
    Terminator (line ++ rest) (line.length + q) ↔ Terminator rest q := by
  simp only [Terminator, Nat.add_assoc, List.getElem?_append_right (Nat.le_add_right ..),
    Nat.add_sub_cancel_left]

namespace Lines

/-! ## Bounds -/

theorem ne_nil (h : Lines p text bounds) : bounds ≠ [] := by
  cases h <;> simp

theorem head_start (h : Lines p text bounds) : bounds.head?.map (·.1) = some p := by
  cases h <;> rfl

theorem inside (h : Lines p text bounds) :
    ∀ b ∈ bounds, p ≤ b.1 ∧ b.1 ≤ b.2 ∧ b.2 ≤ p + text.length := by
  induction h with
  | last h => simp
  | lf h hcr rest ih =>
    intro b hb
    simp only [List.length_append, List.length_cons]
    rcases List.mem_cons.mp hb with rfl | hb
    · dsimp only
      omega
    · have := ih b hb
      omega
  | crlf h rest ih =>
    intro b hb
    simp only [List.length_append, List.length_cons]
    rcases List.mem_cons.mp hb with rfl | hb
    · dsimp only
      omega
    · have := ih b hb
      omega

/-- A line ends before the next one begins. -/
theorem ordered (h : Lines p text bounds) : bounds.Pairwise fun b b' => b.2 < b'.1 := by
  induction h with
  | last h => exact List.pairwise_singleton ..
  | lf h hcr rest ih =>
    refine .cons (fun b hb => ?_) ih
    have := (rest.inside b hb).1
    dsimp only
    omega
  | crlf h rest ih =>
    refine .cons (fun b hb => ?_) ih
    have := (rest.inside b hb).1
    dsimp only
    omega

theorem last_stop (h : Lines p text bounds) :
    ∃ b, bounds.getLast? = some b ∧ b.2 = p + text.length := by
  induction h with
  | last h => exact ⟨_, rfl, rfl⟩
  | lf h hcr rest ih =>
    obtain ⟨b, hb, hstop⟩ := ih
    refine ⟨b, by rw [List.getLast?_cons, hb]; rfl, ?_⟩
    rw [hstop, List.length_append, List.length_cons]
    omega
  | crlf h rest ih =>
    obtain ⟨b, hb, hstop⟩ := ih
    refine ⟨b, by rw [List.getLast?_cons, hb]; rfl, ?_⟩
    rw [hstop, List.length_append, List.length_cons, List.length_cons]
    omega

/-- **What lines hold.** The bytes of a text that are in a line are those that are in no
terminator. -/
theorem mem_iff (h : Lines p text bounds) (hq : q < text.length) :
    (∃ b ∈ bounds, b.1 ≤ p + q ∧ p + q < b.2) ↔ ¬ Terminator text q := by
  induction h generalizing q with
  | @last p text h =>
    have hnot : ¬ Terminator (text ++ []) q := not_terminator_of_not_mem h (by simp) hq
    rw [List.append_nil] at hnot
    simp [hnot, hq]
  | @lf p line text bounds h hcr rest ih =>
    simp only [List.length_append, List.length_cons] at hq
    rw [List.exists_mem_cons_iff]
    rcases Nat.lt_trichotomy q line.length with hlt | rfl | hgt
    · have hnot : ¬ Terminator (line ++ 10 :: text) q :=
        not_terminator_of_not_mem h (fun _ => hcr) hlt
      simp [hnot, hlt]
    · have hterm : Terminator (line ++ 10 :: text) line.length := .inl (by simp)
      simp only [hterm, not_true_eq_false, iff_false, not_or, not_exists, not_and]
      refine ⟨by simp, fun b hb hle => ?_⟩
      have := rest.inside b hb
      omega
    · obtain ⟨k, rfl⟩ := Nat.exists_eq_add_of_lt hgt
      rw [show line.length + k + 1 = line.length + (k + 1) by omega, terminator_append]
      have hshift : Terminator (10 :: text) (k + 1) ↔ Terminator text k := by simp [Terminator]
      rw [hshift, ← ih (by omega),
        show p + (line.length + (k + 1)) = p + line.length + 1 + k by omega]
      have hpast : ¬ (p ≤ p + line.length + 1 + k ∧ p + line.length + 1 + k < p + line.length) := by
        omega
      simp only [hpast, false_or]
  | @crlf p line text bounds h rest ih =>
    simp only [List.length_append, List.length_cons] at hq
    rw [List.exists_mem_cons_iff]
    have hbefore : ∀ k, k ≤ 1 → Terminator (line ++ 13 :: 10 :: text) (line.length + k) ∧
        ¬ ∃ b ∈ bounds, b.1 ≤ p + (line.length + k) ∧ p + (line.length + k) < b.2 := by
      intro k hk
      constructor
      · rw [terminator_append]
        rcases Nat.le_one_iff_eq_zero_or_eq_one.mp hk with rfl | rfl
        · exact .inr ⟨rfl, rfl⟩
        · exact .inl rfl
      · rintro ⟨b, hb, hle, -⟩
        have := rest.inside b hb
        omega
    rcases Nat.lt_or_ge q line.length with hlt | hge
    · have hnot : ¬ Terminator (line ++ 13 :: 10 :: text) q :=
        not_terminator_of_not_mem h (by simp) hlt
      simp [hnot, hlt]
    · obtain ⟨k, rfl⟩ := Nat.exists_eq_add_of_le hge
      have hpast : ¬ (p ≤ p + (line.length + k) ∧ p + (line.length + k) < p + line.length) := by
        omega
      simp only [hpast, false_or]
      by_cases hk : k ≤ 1
      · simp only [hbefore k hk, not_true_eq_false]
      · obtain ⟨m, rfl⟩ : ∃ m, k = m + 2 := ⟨k - 2, by omega⟩
        have hshift : Terminator (13 :: 10 :: text) (m + 2) ↔ Terminator text m := by
          simp [Terminator]
        rw [terminator_append, hshift, ← ih (by omega),
          show p + (line.length + (m + 2)) = p + line.length + 2 + m by omega]

end Lines

/-! ## Clipped ranges -/

theorem clip_eq_some_iff : clip r b = some s ↔ max r.start b.1 < min r.stop b.2 ∧
    s = ⟨max r.start b.1 - b.1, min r.stop b.2 - b.1⟩ := by
  unfold clip
  split
  · rename_i hlt
    simp only [hlt, true_and, Option.some.injEq, eq_comm]
  · rename_i hlt
    simp only [hlt, false_and, reduceCtorEq]

/-- What is clipped off begins before the line or ends behind it. -/
theorem mem_clip_iff : (∃ s ∈ clip r b, b.1 + s.start ≤ q ∧ q < b.1 + s.stop) ↔
    (r.start ≤ q ∧ q < r.stop) ∧ b.1 ≤ q ∧ q < b.2 := by
  constructor
  · rintro ⟨s, hs, hq⟩
    obtain ⟨hlt, rfl⟩ := clip_eq_some_iff.mp hs
    dsimp only at hq
    omega
  · rintro ⟨hr, hb⟩
    exact ⟨_, clip_eq_some_iff.mpr ⟨by omega, rfl⟩, by dsimp only; omega⟩

theorem clip_eq_none_of_le (h : r.stop ≤ b.1 ∨ b.2 ≤ r.start ∨ r.stop ≤ r.start) :
    clip r b = none := by
  unfold clip
  rw [if_neg]
  omega

end Diffz
