import Diffz.Lib.Search
import Diffz.Lib.Spans

/-!
# Excerpts

A text falls into words at its separators, and the words make a line again, with single spaces. A
line that has too many bytes is cut at a character, and an ellipsis says so. Cut like this, a line is
still one of words: those that fit, and of the next what fits, with the ellipsis.
-/

set_option autoImplicit false

namespace Diffz

/-! ## Words -/

section Words

variable {α : Type} {p : α → Bool} {l a b w : List α} {x : α}

/-- `split`, without the empty parts. -/
def wordsBy (p : α → Bool) (l : List α) : List (List α) := (l.splitOnP p).filter fun w => !w.isEmpty

theorem wordsBy_append_cons (hx : p x = true) :
    wordsBy p (a ++ x :: b) = wordsBy p a ++ wordsBy p b := by
  rw [wordsBy, List.splitOnP_append_cons a b hx, List.filter_append]
  rfl

theorem wordsBy_unbroken (h : ∀ y ∈ l, p y = false) :
    wordsBy p l = if l.isEmpty then [] else [l] := by
  rw [wordsBy, List.splitOnP_eq_singleton h]
  cases l <;> rfl

theorem not_separator_of_mem_splitOnP (h : w ∈ l.splitOnP p) : ∀ y ∈ w, p y = false := by
  induction l generalizing w with
  | nil =>
    rw [List.splitOnP_nil, List.mem_singleton] at h
    exact h ▸ List.forall_mem_nil _
  | cons z l ih =>
    rw [List.splitOnP_cons_eq_if_modifyHead] at h
    cases hz : p z with
    | true =>
      rw [hz, if_pos rfl, List.mem_cons] at h
      rcases h with rfl | h
      · exact List.forall_mem_nil _
      · exact ih h
    | false =>
      rw [hz, if_neg (by decide)] at h
      obtain ⟨first, others, heq⟩ := List.exists_cons_of_ne_nil (List.splitOnP_ne_nil p l)
      rw [heq, List.modifyHead_cons, List.mem_cons] at h
      rw [heq] at ih
      rcases h with rfl | h
      · exact List.forall_mem_cons.mpr ⟨hz, ih List.mem_cons_self⟩
      · exact ih (List.mem_cons_of_mem _ h)

theorem of_mem_wordsBy (h : w ∈ wordsBy p l) : w ≠ [] ∧ ∀ y ∈ w, p y = false := by
  obtain ⟨hmem, hne⟩ := List.mem_filter.mp h
  exact ⟨by simpa using hne, not_separator_of_mem_splitOnP hmem⟩

/-- A text ends in a word that is still open, and what follows only adds to that. -/
theorem exists_open_word (p : α → Bool) (l : List α) : ∃ whole last, (∀ y ∈ last, p y = false) ∧
    ∀ t, wordsBy p (l ++ t) = whole ++ wordsBy p (last ++ t) := by
  cases h : rposition p l with
  | none => exact ⟨[], l, rposition_eq_none h, fun t => rfl⟩
  | some i =>
    obtain ⟨a, x, b, rfl, hx, -, hb⟩ := rposition_split h
    refine ⟨wordsBy p a, b, hb, fun t => ?_⟩
    rw [List.append_assoc, List.cons_append, wordsBy_append_cons hx]

/-- What does not have the separator occurs on one side of it. -/
theorem infix_append_cons {q : List α} (hx : x ∉ q) (h : q <:+: a ++ x :: b) :
    q <:+: a ∨ q <:+: b := by
  rcases infix_append_cases h with ha | hb | ⟨k, -, hk, -, hdrop⟩
  · exact Or.inl ha
  · rcases List.infix_cons_iff.mp hb with hpre | hinfix
    · cases q with
      | nil => exact Or.inl List.nil_infix
      | cons y q =>
        obtain ⟨rfl, -⟩ := List.cons_prefix_cons.mp hpre
        exact absurd List.mem_cons_self hx
    · exact Or.inr hinfix
  · have hne : q.drop k ≠ [] := fun hnil => absurd (List.drop_eq_nil_iff.mp hnil) (by omega)
    obtain ⟨y, r, hr⟩ := List.exists_cons_of_ne_nil hne
    rw [hr] at hdrop
    obtain ⟨rfl, -⟩ := List.cons_prefix_cons.mp hdrop
    exact absurd (List.mem_of_mem_drop (hr ▸ List.mem_cons_self)) hx

end Words

/-! ## Cuts -/

variable {s t u w : List Char} {c : Char} {n : Nat}

/-- `while !line.is_char_boundary(end) { end -= 1; }`. -/
def boundaryBelow (t : List Char) : Nat → Nat
  | 0 => 0
  | n + 1 => if isCharBoundary t (n + 1) then n + 1 else boundaryBelow t n

/-- What is before the last boundary up to `n`; there is always one. -/
def cutAt (n : Nat) (t : List Char) : List Char := (slice t ⟨0, boundaryBelow t n⟩).getD []

/-- A text of at most `n` bytes, or what fits of it, and an ellipsis. -/
def shorten (n : Nat) (t : List Char) : List Char :=
  if byteLen t ≤ n then t else cutAt n t ++ ['…']

theorem boundaryBelow_spec (t : List Char) (n : Nat) : boundaryBelow t n ≤ n ∧
    isCharBoundary t (boundaryBelow t n) = true ∧
    ∀ m ≤ n, isCharBoundary t m = true → m ≤ boundaryBelow t n := by
  induction n with
  | zero => exact ⟨le_rfl, isCharBoundary_zero t, fun m hm _ => hm⟩
  | succ n ih =>
    rw [boundaryBelow]
    split
    · rename_i h
      exact ⟨le_rfl, h, fun m hm _ => hm⟩
    · rename_i h
      obtain ⟨hle, hb, hmax⟩ := ih
      refine ⟨by omega, hb, fun m hm hm' => hmax m ?_ hm'⟩
      rcases Nat.lt_or_eq_of_le hm with hlt | rfl
      · omega
      · exact absurd hm' h

/-- The cut is the longest beginning of the text that fits. -/
theorem cutAt_spec (n : Nat) (t : List Char) : cutAt n t <+: t ∧ byteLen (cutAt n t) ≤ n ∧
    ∀ u, u <+: t → byteLen u ≤ n → u <+: cutAt n t := by
  obtain ⟨hle, hb, hmax⟩ := boundaryBelow_spec t n
  obtain ⟨x, y, heq, hx⟩ := isCharBoundary_iff.mp hb
  have hcut : cutAt n t = x := by
    rw [cutAt, slice_eq_some_iff.mpr ⟨[], y, heq, rfl, by rw [byteLen_nil, Nat.zero_add, hx]⟩]
    rfl
  rw [hcut]
  have hpre : x <+: t := ⟨y, heq.symm⟩
  refine ⟨hpre, by omega, fun u hu hlen => isPrefix_of_byteLen_le hpre hu ?_⟩
  obtain ⟨z, hz⟩ := hu
  exact hx ▸ hmax (byteLen u) hlen (isCharBoundary_iff.mpr ⟨u, z, hz.symm, rfl⟩)

theorem cutAt_eq (hpre : s <+: t) (hlen : byteLen s ≤ n)
    (hmax : ∀ u, u <+: t → byteLen u ≤ n → u <+: s) : cutAt n t = s := by
  obtain ⟨hcut, hle, hbest⟩ := cutAt_spec n t
  have hto := hmax _ hcut hle
  exact hto.eq_of_length (le_antisymm hto.length_le (hbest s hpre hlen).length_le)

theorem cutAt_append (h : byteLen s ≤ n) (t : List Char) :
    cutAt n (s ++ t) = s ++ cutAt (n - byteLen s) t := by
  obtain ⟨hcut, hle, hbest⟩ := cutAt_spec (n - byteLen s) t
  refine cutAt_eq ((List.prefix_append_right_inj s).mpr hcut) (by rw [byteLen_append]; omega) ?_
  intro u hu hlen
  rcases List.prefix_or_prefix_of_prefix hu (List.prefix_append s t) with hshort | ⟨r, rfl⟩
  · exact hshort.trans (List.prefix_append s _)
  · rw [byteLen_append] at hlen
    exact (List.prefix_append_right_inj s).mpr
      (hbest r ((List.prefix_append_right_inj s).mp hu) (by omega))

/-- Where a text does not fit, what follows it plays no part. -/
theorem cutAt_append_of_le (h : n ≤ byteLen s) (t : List Char) : cutAt n (s ++ t) = cutAt n s := by
  obtain ⟨hcut, hle, hbest⟩ := cutAt_spec n s
  refine cutAt_eq (hcut.trans (List.prefix_append s t)) hle fun u hu hlen => ?_
  exact hbest u (isPrefix_of_byteLen_le (List.prefix_append s t) hu (by omega)) hlen

theorem shorten_of_le (h : byteLen t ≤ n) : shorten n t = t := if_pos h

theorem shorten_of_lt (h : n < byteLen t) : shorten n t = cutAt n t ++ ['…'] :=
  if_neg (by omega)

theorem shorten_append (h : byteLen s ≤ n) (t : List Char) :
    shorten n (s ++ t) = s ++ shorten (n - byteLen s) t := by
  rw [shorten, shorten, byteLen_append]
  by_cases hle : byteLen t ≤ n - byteLen s
  · rw [if_pos hle, if_pos (by omega)]
  · rw [if_neg hle, if_neg (by omega), cutAt_append h, List.append_assoc]

theorem byteLen_shorten_le (n : Nat) (t : List Char) : byteLen (shorten n t) ≤ n + 3 := by
  rw [shorten]
  split
  · omega
  · have hell : byteLen ['…'] = 3 := by decide
    rw [byteLen_append, hell]
    exact Nat.add_le_add_right (cutAt_spec n t).2.1 3

theorem shorten_ne_nil (h : t ≠ []) (n : Nat) : shorten n t ≠ [] := by
  rw [shorten]
  split
  · exact h
  · simp

/-! ## Lines of words -/

/-- `join(" ")`. -/
def joinWords (ws : List (List Char)) : List Char := [' '].intercalate ws

/-- Where the next word begins in a line that begins with these. -/
def extent : List (List Char) → Nat
  | [] => 0
  | w :: ws => byteLen w + 1 + extent ws

/-- What is between the spaces of a line of words that is cut to `n` bytes. -/
def pieces : Nat → List (List Char) → List (List Char)
  | _, [] => []
  | n, [w] => [shorten n w]
  | n, w :: v :: ws =>
    if byteLen w < n then w :: pieces (n - byteLen w - 1) (v :: ws) else [cutAt n w ++ ['…']]

variable {ws before after : List (List Char)} {i : Nat}

@[simp] theorem joinWords_singleton (w : List Char) : joinWords [w] = w :=
  List.intercalate_singleton

theorem joinWords_cons (w : List Char) (h : ws ≠ []) :
    joinWords (w :: ws) = w ++ ' ' :: joinWords ws := by
  rw [joinWords, List.intercalate_cons_of_ne_nil h, List.append_assoc]
  rfl

theorem mem_joinWords (h : c ∈ joinWords ws) : c = ' ' ∨ ∃ w ∈ ws, c ∈ w := by
  induction ws with
  | nil => cases h
  | cons w ws ih =>
    cases ws with
    | nil => exact Or.inr ⟨w, List.mem_cons_self, by rwa [joinWords_singleton] at h⟩
    | cons v ws =>
      rw [joinWords_cons w (List.cons_ne_nil v ws), List.mem_append, List.mem_cons] at h
      rcases h with h | h | h
      · exact Or.inr ⟨w, List.mem_cons_self, h⟩
      · exact Or.inl h
      · refine (ih h).imp_right ?_
        rintro ⟨u, hu, hc⟩
        exact ⟨u, List.mem_cons_of_mem w hu, hc⟩

theorem mem_joinWords_of_mem (hw : w ∈ ws) (h : c ∈ w) : c ∈ joinWords ws := by
  induction ws with
  | nil => cases hw
  | cons u ws ih =>
    cases ws with
    | nil =>
      obtain rfl := List.mem_singleton.mp hw
      rwa [joinWords_singleton]
    | cons v ws =>
      rw [joinWords_cons u (List.cons_ne_nil v ws), List.mem_append, List.mem_cons]
      rcases List.mem_cons.mp hw with rfl | hrest
      · exact Or.inl h
      · exact Or.inr (Or.inr (ih hrest))

theorem map_joinWords {f : Char → Char} (hf : f ' ' = ' ') (ws : List (List Char)) :
    (joinWords ws).map f = joinWords (ws.map (List.map f)) := by
  induction ws with
  | nil => rfl
  | cons w ws ih =>
    cases ws with
    | nil => rw [List.map_singleton, joinWords_singleton, joinWords_singleton]
    | cons v ws =>
      rw [joinWords_cons w (List.cons_ne_nil v ws), List.map_append, List.map_cons, hf, ih]
      exact (joinWords_cons _ (List.cons_ne_nil _ _)).symm

/-- What has no space occurs in a word of the line. -/
theorem infix_joinWords {q : List Char} (hq : q ≠ []) (hspace : ' ' ∉ q) (h : q <:+: joinWords ws) :
    ∃ w ∈ ws, q <:+: w := by
  induction ws with
  | nil => exact absurd (List.infix_nil.mp h) hq
  | cons w ws ih =>
    cases ws with
    | nil => exact ⟨w, List.mem_cons_self, by rwa [joinWords_singleton] at h⟩
    | cons v ws =>
      rw [joinWords_cons w (List.cons_ne_nil v ws)] at h
      rcases infix_append_cons hspace h with hw | hrest
      · exact ⟨w, List.mem_cons_self, hw⟩
      · obtain ⟨u, hu, hin⟩ := ih hrest
        exact ⟨u, List.mem_cons_of_mem w hu, hin⟩

theorem pieces_ne_nil (n : Nat) (h : ws ≠ []) : pieces n ws ≠ [] := by
  match ws, h with
  | [w], _ => simp [pieces]
  | w :: v :: ws, _ =>
    rw [pieces]
    split
    all_goals simp

/-- **A line of words that is cut is the line of its pieces.** -/
theorem shorten_joinWords (n : Nat) (h : ws ≠ []) :
    shorten n (joinWords ws) = joinWords (pieces n ws) := by
  induction ws generalizing n with
  | nil => exact absurd rfl h
  | cons w ws ih =>
    cases ws with
    | nil => rw [pieces, joinWords_singleton, joinWords_singleton]
    | cons v ws =>
      have hspace : byteLen (w ++ [' ']) = byteLen w + 1 := by
        rw [byteLen_append]
        rfl
      rw [joinWords_cons w (List.cons_ne_nil v ws), pieces]
      split
      · have hassoc : w ++ ' ' :: joinWords (v :: ws) = (w ++ [' ']) ++ joinWords (v :: ws) := by
          rw [List.append_assoc, List.singleton_append]
        rw [hassoc, shorten_append (by omega), ih _ (List.cons_ne_nil v ws), hspace, Nat.sub_add_eq,
          joinWords_cons w (pieces_ne_nil _ (List.cons_ne_nil v ws)), List.append_assoc]
        rfl
      · have hmore : byteLen (' ' :: joinWords (v :: ws)) = 1 + byteLen (joinWords (v :: ws)) := rfl
        rw [joinWords_singleton, shorten_of_lt (by rw [byteLen_append, hmore]; omega),
          cutAt_append_of_le (by omega)]

/-- A piece is the word in its place, or a beginning of it and an ellipsis. -/
theorem getElem?_pieces {q : List Char} (h : (pieces n ws)[i]? = some q) :
    ∃ w, ws[i]? = some w ∧ (q = w ∨ ∃ u, u <+: w ∧ q = u ++ ['…']) := by
  have hcut : ∀ m w, cutAt m w <+: w := fun m w => (cutAt_spec m w).1
  induction ws generalizing n i with
  | nil => cases h
  | cons w ws ih =>
    cases ws with
    | nil =>
      rw [pieces] at h
      cases i with
      | succ i => cases h
      | zero =>
        obtain rfl : shorten n w = q := Option.some.inj h
        refine ⟨w, rfl, ?_⟩
        rw [shorten]
        split
        · exact Or.inl rfl
        · exact Or.inr ⟨_, hcut n w, rfl⟩
    | cons v ws =>
      rw [pieces] at h
      split at h
      · cases i with
        | zero =>
          cases h
          exact ⟨_, rfl, Or.inl rfl⟩
        | succ i => exact ih h
      · cases i with
        | succ i => cases h
        | zero =>
          cases h
          exact ⟨w, rfl, Or.inr ⟨_, hcut n w, rfl⟩⟩

/-- The last word has a piece only where the line reaches it, and then it is cut to what is left. -/
theorem getElem?_pieces_last (n : Nat) (before : List (List Char)) (w : List Char) :
    (pieces n (before ++ [w]))[before.length]? =
      if extent before ≤ n then some (shorten (n - extent before) w) else none := by
  induction before generalizing n with
  | nil => rfl
  | cons v before ih =>
    obtain ⟨u, us, hus⟩ := List.exists_cons_of_ne_nil (List.append_ne_nil_of_right_ne_nil before
      (List.cons_ne_nil w []))
    rw [List.cons_append, hus, pieces, extent]
    split
    · rw [List.length_cons, List.getElem?_cons_succ, ← hus, ih, Nat.sub_sub, Nat.sub_sub,
        Nat.add_assoc]
      by_cases hle : extent before ≤ n - (byteLen v + 1)
      · rw [if_pos hle, if_pos (by omega)]
      · rw [if_neg hle, if_neg (by omega)]
    · rw [if_neg (by omega)]
      rfl

/-- The words have the character, and it ends within the first `n` bytes of their line. -/
def Within (n : Nat) (c : Char) (ws : List (List Char)) : Prop :=
  ∃ before w after u v, ws = before ++ w :: after ∧ w = u ++ c :: v ∧
    extent before + byteLen u + c.utf8Size ≤ n

theorem within_cons : Within n c (w :: ws) ↔
    (∃ u v, w = u ++ c :: v ∧ byteLen u + c.utf8Size ≤ n) ∨
      (byteLen w < n ∧ Within (n - byteLen w - 1) c ws) := by
  have hpos := c.utf8Size_pos
  constructor
  · rintro ⟨before, w', after, u, v, heq, hw, hle⟩
    cases before with
    | nil =>
      obtain ⟨rfl, rfl⟩ := List.cons.inj heq
      rw [extent, Nat.zero_add] at hle
      exact Or.inl ⟨u, v, hw, hle⟩
    | cons x before =>
      obtain ⟨rfl, rfl⟩ := List.cons.inj heq
      rw [extent] at hle
      exact Or.inr ⟨by omega, before, w', after, u, v, rfl, hw, by omega⟩
  · rintro (⟨u, v, hw, hle⟩ | ⟨hlt, before, w', after, u, v, rfl, hw, hle⟩)
    · exact ⟨[], w, ws, u, v, rfl, hw, by rw [extent, Nat.zero_add]; exact hle⟩
    · exact ⟨w :: before, w', after, u, v, rfl, hw, by rw [extent]; omega⟩

theorem mem_cutAt_iff : c ∈ cutAt n t ↔ ∃ u v, t = u ++ c :: v ∧ byteLen u + c.utf8Size ≤ n := by
  obtain ⟨⟨r, hr⟩, hle, hbest⟩ := cutAt_spec n t
  constructor
  · intro h
    obtain ⟨u, v, huv⟩ := List.append_of_mem h
    rw [huv, byteLen_append, byteLen_cons] at hle
    exact ⟨u, v ++ r, by rw [← hr, huv, List.append_assoc, List.cons_append], by omega⟩
  · rintro ⟨u, v, rfl, hlen⟩
    have hshown : u ++ [c] <+: cutAt n (u ++ c :: v) := by
      refine hbest _ ⟨v, by rw [List.append_assoc, List.singleton_append]⟩ ?_
      rw [byteLen_append]
      exact hlen
    exact hshown.subset (List.mem_append_right u List.mem_cons_self)

theorem mem_shorten_iff (hc : c ≠ '…') :
    c ∈ shorten n t ↔ ∃ u v, t = u ++ c :: v ∧ byteLen u + c.utf8Size ≤ n := by
  rw [shorten]
  split
  · rename_i hle
    constructor
    · intro h
      obtain ⟨u, v, rfl⟩ := List.append_of_mem h
      rw [byteLen_append, byteLen_cons] at hle
      exact ⟨u, v, rfl, by omega⟩
    · rintro ⟨u, v, rfl, -⟩
      exact List.mem_append_right u List.mem_cons_self
  · rw [List.mem_append, List.mem_singleton, or_iff_left hc, mem_cutAt_iff]

/-- **A character is shown where it ends within the limit.** -/
theorem mem_pieces_iff (hc : c ≠ '…') : (∃ q ∈ pieces n ws, c ∈ q) ↔ Within n c ws := by
  have hnone : ∀ m, ¬ Within m c [] := fun m h => by
    obtain ⟨before, w, after, u, v, heq, -⟩ := h
    exact absurd heq (by simp)
  induction ws generalizing n with
  | nil => simp [pieces, hnone]
  | cons w ws ih =>
    rw [within_cons]
    cases ws with
    | nil => simp only [pieces, List.mem_singleton, exists_eq_left, mem_shorten_iff hc, hnone,
        and_false, or_false]
    | cons v ws =>
      rw [pieces]
      split
      · rename_i hlt
        simp only [List.mem_cons, exists_eq_or_imp, ← ih, hlt, true_and]
        refine or_congr_left ?_
        rw [← mem_shorten_iff hc, shorten_of_le hlt.le]
      · rename_i hge
        simp only [List.mem_singleton, exists_eq_left, List.mem_append, hc, or_false, hge,
          false_and, mem_cutAt_iff]

end Diffz
