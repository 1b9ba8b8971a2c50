import Mathlib.Order.Monotone.Defs
import Diffz.Core.Layout

/-!
# Tabs expand, and offsets go back

Each character of the source is displayed as a piece of one character or more, and each character of
a piece stands for the offset the piece came from (`entries`). In the map of a text so made both
offsets are in order, which the two searches need (`Sorted`), and a character of the source is where
its offset is first.
-/

set_option autoImplicit false

namespace Diffz
namespace Proof
namespace Layout

open DisplayText

variable {tabSize column display i s : Nat} {source before after : List Char} {d : DisplayText}

/-! ## What is asked of the display -/

/-- What a character is displayed as: a tab as spaces up to the next tab stop. -/
def IsPiece (tabSize column : Nat) (c : Char) (piece : List Char) : Prop :=
  (c ≠ '\t' → piece = [c]) ∧
    (c = '\t' → ∃ n, piece = List.replicate n ' ' ∧ 1 ≤ n ∧ n ≤ tabSize ∧ tabSize ∣ column + n)

/-! ## The expansion -/

def piece (tabSize column : Nat) (c : Char) : List Char :=
  if c = '\t' then List.replicate (tabSize - column % tabSize) ' ' else [c]

theorem piece_isPiece (htab : 0 < tabSize) (c : Char) :
    IsPiece tabSize column c (piece tabSize column c) := by
  refine ⟨fun hc => if_neg hc, fun hc => ⟨_, if_pos hc, ?_⟩⟩
  have hlt : column % tabSize < tabSize := Nat.mod_lt column htab
  refine ⟨by omega, Nat.sub_le _ _, ?_⟩
  have hsum : column + (tabSize - column % tabSize) = tabSize * (column / tabSize) + tabSize := by
    have hdiv := Nat.div_add_mod column tabSize
    omega
  rw [hsum]
  exact Nat.dvd_add (Nat.dvd_mul_right _ _) (Nat.dvd_refl _)

theorem piece_ne_nil (htab : 0 < tabSize) (c : Char) : piece tabSize column c ≠ [] := by
  have hlt : column % tabSize < tabSize := Nat.mod_lt column htab
  rw [piece]
  split
  · intro h
    have hzero := congrArg List.length h
    rw [List.length_replicate, List.length_nil] at hzero
    omega
  · exact List.cons_ne_nil _ _

/-- The display of a text that begins in this column. -/
def shown (tabSize : Nat) : Nat → List Char → List Char
  | _, [] => []
  | column, c :: rest =>
    piece tabSize column c ++ shown tabSize (column + (piece tabSize column c).length) rest

/-- The entries of a piece, for the offset `i`. -/
def pieceEntries (i : Nat) : Nat → List Char → List (Nat × Nat)
  | _, [] => []
  | display, c :: rest => (display, i) :: pieceEntries i (display + c.utf8Size) rest

/-- The entries of a text that begins in this column, at these offsets. -/
def entries (tabSize : Nat) : Nat → Nat → Nat → List Char → List (Nat × Nat)
  | _, _, _, [] => []
  | column, display, i, c :: rest =>
    pieceEntries i display (piece tabSize column c) ++
      entries tabSize (column + (piece tabSize column c).length)
        (display + byteLen (piece tabSize column c)) (i + c.utf8Size) rest

theorem pushSpaces_eq (i n : Nat) (e : Expansion) :
    pushSpaces i n e =
      { text := e.text ++ List.replicate n ' '
        map := e.map ++ pieceEntries i (byteLen e.text) (List.replicate n ' ')
        column := e.column } := by
  induction n generalizing e with
  | zero => simp [pushSpaces, pieceEntries]
  | succ n ih =>
    rw [pushSpaces, ih]
    simp [Expansion.push, List.replicate_succ, pieceEntries]

/-- One turn of the loop adds a piece. -/
theorem pushChar_eq (i : Nat) (c : Char) (e : Expansion) :
    pushChar tabSize i c e =
      { text := e.text ++ piece tabSize e.column c
        map := e.map ++ pieceEntries i (byteLen e.text) (piece tabSize e.column c)
        column := e.column + (piece tabSize e.column c).length } := by
  rw [pushChar, piece]
  split
  · simp [pushSpaces_eq]
  · simp [Expansion.push, pieceEntries]

theorem expandLoop_eq (i : Nat) (source : List Char) (e : Expansion) :
    (expandLoop tabSize i source e).text = e.text ++ shown tabSize e.column source ∧
      (expandLoop tabSize i source e).map =
        e.map ++ entries tabSize e.column (byteLen e.text) i source := by
  induction source generalizing i e with
  | nil => simp [expandLoop, shown, entries]
  | cons c rest ih =>
    obtain ⟨htext, hmap⟩ := ih (i + c.utf8Size) (pushChar tabSize i c e)
    rw [expandLoop, htext, hmap, pushChar_eq]
    simp [shown, entries]

theorem shown_append (tabSize column : Nat) (before after : List Char) :
    shown tabSize column (before ++ after) = shown tabSize column before ++
      shown tabSize (column + (shown tabSize column before).length) after := by
  induction before generalizing column with
  | nil => simp [shown]
  | cons c before ih => simp [shown, ih, Nat.add_assoc]

theorem entries_append (tabSize column display i : Nat) (before after : List Char) :
    entries tabSize column display i (before ++ after) = entries tabSize column display i before ++
      entries tabSize (column + (shown tabSize column before).length)
        (display + byteLen (shown tabSize column before)) (i + byteLen before) after := by
  induction before generalizing column display i with
  | nil => simp [shown, entries]
  | cons c before ih => simp [shown, entries, ih, Nat.add_assoc]

/-! ## The map -/

/-- The entries are in the order of the display, and of the source, between these bounds. -/
def Between (d i d' i' : Nat) (l : List (Nat × Nat)) : Prop :=
  (l.Pairwise fun a b => a.1 < b.1 ∧ a.2 ≤ b.2) ∧
    ∀ e ∈ l, d ≤ e.1 ∧ e.1 < d' ∧ i ≤ e.2 ∧ e.2 < i'

theorem pieceEntries_bounds (i display : Nat) (p : List Char) :
    ∀ e ∈ pieceEntries i display p, display ≤ e.1 ∧ e.1 < display + byteLen p ∧ e.2 = i := by
  induction p generalizing display with
  | nil => exact List.forall_mem_nil _
  | cons x p ih =>
    intro e he
    have hpos := x.utf8Size_pos
    rw [byteLen_cons]
    rcases List.mem_cons.mp he with rfl | he
    · exact ⟨le_refl _, by dsimp only; omega, rfl⟩
    · obtain ⟨hle, hlt, heq⟩ := ih _ e he
      exact ⟨by omega, by omega, heq⟩

theorem pieceEntries_between (i : Nat) (c : Char) (display : Nat) (p : List Char) :
    Between display i (display + byteLen p) (i + c.utf8Size) (pieceEntries i display p) := by
  constructor
  · induction p generalizing display with
    | nil => exact .nil
    | cons x p ih =>
      refine List.pairwise_cons.mpr ⟨fun e he => ?_, ih _⟩
      have hpos := x.utf8Size_pos
      obtain ⟨hle, -, heq⟩ := pieceEntries_bounds i _ p e he
      exact ⟨by dsimp only; omega, heq.ge⟩
  · intro e he
    obtain ⟨hle, hlt, heq⟩ := pieceEntries_bounds i display p e he
    have hpos := c.utf8Size_pos
    exact ⟨hle, hlt, heq.ge, by omega⟩

theorem Between.append {d i d₁ i₁ d₂ i₂ : Nat} {l m : List (Nat × Nat)} (hl : Between d i d₁ i₁ l)
    (hm : Between d₁ i₁ d₂ i₂ m) (hd : d ≤ d₁) (hi : i ≤ i₁) (hd' : d₁ ≤ d₂) (hi' : i₁ ≤ i₂) :
    Between d i d₂ i₂ (l ++ m) := by
  refine ⟨List.pairwise_append.mpr ⟨hl.1, hm.1, fun a ha b hb => ?_⟩, fun e he => ?_⟩
  · obtain ⟨-, hlt, -, hlt'⟩ := hl.2 a ha
    obtain ⟨hle, -, hle', -⟩ := hm.2 b hb
    exact ⟨hlt.trans_le hle, (hlt'.trans_le hle').le⟩
  · rcases List.mem_append.mp he with he | he
    · obtain ⟨hle, hlt, hle', hlt'⟩ := hl.2 e he
      exact ⟨hle, hlt.trans_le hd', hle', hlt'.trans_le hi'⟩
    · obtain ⟨hle, hlt, hle', hlt'⟩ := hm.2 e he
      exact ⟨hd.trans hle, hlt, hi.trans hle', hlt'⟩

/-- **The map is in order.** -/
theorem entries_between (tabSize column display i : Nat) (source : List Char) :
    Between display i (display + byteLen (shown tabSize column source)) (i + byteLen source)
      (entries tabSize column display i source) := by
  induction source generalizing column display i with
  | nil => exact ⟨.nil, List.forall_mem_nil _⟩
  | cons c rest ih =>
    rw [entries, shown, byteLen_append, byteLen_cons, ← Nat.add_assoc, ← Nat.add_assoc]
    exact (pieceEntries_between i c display _).append (ih _ _ _) (Nat.le_add_right _ _)
      (Nat.le_add_right _ _) (Nat.le_add_right _ _) (Nat.le_add_right _ _)

/-- The first entry of a text, or the one at its end, is for its offset. -/
theorem entries_head (htab : 0 < tabSize) (column display i : Nat) (source : List Char) :
    ∃ rest, entries tabSize column display i source ++
      [(display + byteLen (shown tabSize column source), i + byteLen source)] =
        (display, i) :: rest := by
  cases source with
  | nil => exact ⟨[], rfl⟩
  | cons c source =>
    have hne : piece tabSize column c ≠ [] := piece_ne_nil htab c
    obtain ⟨x, p, hp⟩ := List.exists_cons_of_ne_nil hne
    rw [entries, hp, pieceEntries, List.cons_append, List.cons_append]
    exact ⟨_, rfl⟩

/-! ## The searches -/

/-- What the searches need of a map, and of the text it is for. -/
structure Sorted (d : DisplayText) : Prop where
  ordered : d.map.Pairwise fun a b => a.1 < b.1 ∧ a.2 ≤ b.2
  first : ∃ rest, d.map = (0, 0) :: rest
  bound : ∀ e ∈ d.map, e.1 ≤ byteLen d.text

theorem Sorted.ne_nil (h : Sorted d) : d.map ≠ [] := by
  obtain ⟨rest, hmap⟩ := h.first
  rw [hmap]
  exact List.cons_ne_nil _ _

theorem Sorted.displays (h : Sorted d) (n : Nat) : d.map.Pairwise fun a b =>
    decide (b.1 ≤ n) = true → decide (a.1 ≤ n) = true :=
  h.ordered.imp fun hab hb => decide_eq_true (hab.1.le.trans (of_decide_eq_true hb))

theorem Sorted.sources (h : Sorted d) (n : Nat) : d.map.Pairwise fun a b =>
    decide (b.2 < n) = true → decide (a.2 < n) = true :=
  h.ordered.imp fun hab hb => decide_eq_true (hab.2.trans_lt (of_decide_eq_true hb))

/-- A source offset is found at the last entry that is not past the display offset. -/
theorem Sorted.sourceByte_eq (h : Sorted d) (n : Nat) :
    ∃ k e, bisect (fun e => decide (e.1 ≤ n)) d.map = k + 1 ∧ d.map[k]? = some e ∧ e.1 ≤ n ∧
      d.sourceByte n = e.2 := by
  obtain ⟨rest, hmap⟩ := h.first
  have hzero : d.map[0]? = some (0, 0) := by
    rw [hmap]
    rfl
  have hpos : 0 < bisect (fun e => decide (e.1 ≤ n)) d.map :=
    (lt_bisect_iff (h.displays n) hzero).mpr (decide_eq_true (Nat.zero_le n))
  obtain ⟨k, hk⟩ := Nat.exists_eq_succ_of_ne_zero hpos.ne'
  have hlt : k < d.map.length := by
    have hle := bisect_le_length (h.displays n)
    omega
  have hget := List.getElem?_eq_getElem hlt
  refine ⟨k, _, hk, hget, ?_, ?_⟩
  · have hbefore := (lt_bisect_iff (h.displays n) hget).mp (by omega)
    exact of_decide_eq_true hbefore
  · rw [sourceByte, if_neg h.ne_nil, hk, Nat.succ_sub_one, hget]

theorem Sorted.sourceByte_mono (h : Sorted d) : Monotone d.sourceByte := by
  intro m n hmn
  obtain ⟨j, a, hj, ha, -, hm⟩ := h.sourceByte_eq m
  obtain ⟨k, b, hk, hb, -, hn⟩ := h.sourceByte_eq n
  have hle := bisect_mono (h.displays m) (h.displays n) fun e he =>
    decide_eq_true ((of_decide_eq_true he).trans hmn)
  rw [hj, hk] at hle
  rw [hm, hn]
  obtain ⟨hj, rfl⟩ := List.getElem?_eq_some_iff.mp ha
  obtain ⟨hk, rfl⟩ := List.getElem?_eq_some_iff.mp hb
  rcases Nat.eq_or_lt_of_le (Nat.le_of_succ_le_succ hle) with rfl | hlt
  · exact le_refl _
  · exact (List.pairwise_iff_getElem.mp h.ordered j k hj hk hlt).2

/-- A display offset is that of the first entry that is not before the source offset. -/
theorem Sorted.displayByte_le (h : Sorted d) {n k : Nat} {e : Nat × Nat} (he : d.map[k]? = some e)
    (hle : n ≤ e.2) : d.displayByte n ≤ e.1 := by
  obtain ⟨hk, rfl⟩ := List.getElem?_eq_some_iff.mp he
  have hpoint : bisect (fun e => decide (e.2 < n)) d.map ≤ k := by
    by_contra hlt
    have hbefore := (lt_bisect_iff (h.sources n) he).mp (Nat.lt_of_not_le hlt)
    exact absurd (of_decide_eq_true hbefore) (Nat.not_lt.mpr hle)
  rw [displayByte, if_neg h.ne_nil, List.getElem?_eq_getElem (hpoint.trans_lt hk)]
  rcases Nat.eq_or_lt_of_le hpoint with heq | hlt
  · simp only [heq, le_refl]
  · exact (List.pairwise_iff_getElem.mp h.ordered _ k _ hk hlt).1.le

theorem Sorted.displayByte_mono (h : Sorted d) : Monotone d.displayByte := by
  intro m n hmn
  have hpoint := bisect_mono (h.sources m) (h.sources n) fun e he =>
    decide_eq_true ((of_decide_eq_true he).trans_le hmn)
  rcases Nat.lt_or_ge (bisect (fun e => decide (e.2 < n)) d.map) d.map.length with hlt | hge
  · have hget := List.getElem?_eq_getElem hlt
    have hn : d.displayByte n = (d.map[bisect (fun e => decide (e.2 < n)) d.map]).1 := by
      rw [displayByte, if_neg h.ne_nil, hget]
    rw [hn]
    refine h.displayByte_le hget ?_
    have hnot := mt (lt_bisect_iff (h.sources n) hget).mpr (lt_irrefl _)
    have hle : n ≤ _ := Nat.not_lt.mp fun h => hnot (decide_eq_true h)
    exact hmn.trans hle
  · have hn : d.displayByte n = byteLen d.text := by
      rw [displayByte, if_neg h.ne_nil, List.getElem?_eq_none hge]
    rw [hn, displayByte, if_neg h.ne_nil]
    cases hget : d.map[bisect (fun e => decide (e.2 < m)) d.map]? with
    | none => exact le_refl _
    | some e => exact h.bound e (List.mem_of_getElem? hget)

theorem Sorted.displayByte_sourceByte (h : Sorted d) (n : Nat) :
    d.displayByte (d.sourceByte n) ≤ n := by
  obtain ⟨k, e, -, he, hle, hn⟩ := h.sourceByte_eq n
  exact (h.displayByte_le he hn.le).trans hle

/-! ## The mapped text -/

/-- `tab_size.clamp(1, 16)`. -/
def clamped (tabSize : Nat) : Nat := min (max tabSize 1) 16

theorem clamped_pos (tabSize : Nat) : 0 < clamped tabSize := by
  rw [clamped]
  omega

theorem mapped_text (source : List Char) (tabSize : Nat) :
    (mapped source tabSize).text = shown (clamped tabSize) 0 source :=
  (expandLoop_eq 0 source _).1

theorem mapped_map (source : List Char) (tabSize : Nat) :
    (mapped source tabSize).map = entries (clamped tabSize) 0 0 0 source ++
      [(byteLen (shown (clamped tabSize) 0 source), byteLen source)] := by
  obtain ⟨htext, hmap⟩ :=
    @expandLoop_eq (clamped tabSize) 0 source { text := [], map := [], column := 0 }
  rw [List.nil_append] at htext hmap
  rw [mapped, ← clamped]
  dsimp only
  rw [htext, hmap]
  rfl

theorem mapped_sorted (source : List Char) (tabSize : Nat) : Sorted (mapped source tabSize) := by
  have hbetween := entries_between (clamped tabSize) 0 0 0 source
  rw [Nat.zero_add, Nat.zero_add] at hbetween
  constructor
  · rw [mapped_map, List.pairwise_append]
    refine ⟨hbetween.1, List.pairwise_singleton _ _, fun a ha b hb => ?_⟩
    obtain rfl := List.mem_singleton.mp hb
    obtain ⟨-, hlt, -, hlt'⟩ := hbetween.2 a ha
    exact ⟨hlt, hlt'.le⟩
  · obtain ⟨rest, hrest⟩ := entries_head (clamped_pos tabSize) 0 0 0 source
    rw [Nat.zero_add, Nat.zero_add] at hrest
    exact ⟨rest, by rw [mapped_map, hrest]⟩
  · intro e he
    rw [mapped_map] at he
    rw [mapped_text]
    rcases List.mem_append.mp he with he | he
    · exact (hbetween.2 e he).2.1.le
    · obtain rfl := List.mem_singleton.mp he
      exact le_refl _

/-- The map, cut at a character boundary of the source. -/
theorem mapped_split (before after : List Char) (tabSize : Nat) : ∃ rest,
    (mapped (before ++ after) tabSize).map = entries (clamped tabSize) 0 0 0 before ++
      (byteLen (shown (clamped tabSize) 0 before), byteLen before) :: rest := by
  obtain ⟨rest, hrest⟩ := entries_head (clamped_pos tabSize)
    (0 + (shown (clamped tabSize) 0 before).length)
    (0 + byteLen (shown (clamped tabSize) 0 before)) (0 + byteLen before) after
  refine ⟨rest, ?_⟩
  rw [mapped_map, entries_append, shown_append, byteLen_append, byteLen_append, List.append_assoc]
  rw [Nat.zero_add, Nat.zero_add, Nat.zero_add] at hrest
  rw [Nat.zero_add, Nat.zero_add, Nat.zero_add, hrest]

theorem mapped_displayByte (before after : List Char) (tabSize : Nat) :
    (mapped (before ++ after) tabSize).displayByte (byteLen before) =
      byteLen (shown (clamped tabSize) 0 before) := by
  have hs := mapped_sorted (before ++ after) tabSize
  obtain ⟨rest, hmap⟩ := mapped_split before after tabSize
  have hbetween := entries_between (clamped tabSize) 0 0 0 before
  rw [Nat.zero_add, Nat.zero_add] at hbetween
  have hordered := hs.ordered
  rw [hmap, List.pairwise_append] at hordered
  have hpoint : bisect (fun e => decide (e.2 < byteLen before))
      (mapped (before ++ after) tabSize).map = (entries (clamped tabSize) 0 0 0 before).length := by
    rw [hmap]
    refine bisect_append (fun e he => decide_eq_true (hbetween.2 e he).2.2.2) fun e he => ?_
    apply decide_eq_false
    rcases List.mem_cons.mp he with rfl | he
    · exact lt_irrefl _
    · exact Nat.not_lt.mpr ((List.pairwise_cons.mp hordered.2.1).1 e he).2
  rw [displayByte, if_neg hs.ne_nil, hpoint, hmap, List.getElem?_append_right (le_refl _),
    Nat.sub_self]
  rfl

theorem mapped_sourceByte (before after : List Char) (tabSize : Nat) :
    (mapped (before ++ after) tabSize).sourceByte (byteLen (shown (clamped tabSize) 0 before)) =
      byteLen before := by
  have hs := mapped_sorted (before ++ after) tabSize
  obtain ⟨rest, hmap⟩ := mapped_split before after tabSize
  have hordered := hs.ordered
  rw [hmap, List.append_cons, List.pairwise_append] at hordered
  have hpoint : bisect (fun e => decide (e.1 ≤ byteLen (shown (clamped tabSize) 0 before)))
      (mapped (before ++ after) tabSize).map =
        (entries (clamped tabSize) 0 0 0 before).length + 1 := by
    rw [hmap, List.append_cons, bisect_append, List.length_append]
    · rfl
    · intro e he
      apply decide_eq_true
      rcases List.mem_append.mp he with he | he
      · exact ((List.pairwise_append.mp hordered.1).2.2 e he _ (List.mem_singleton_self _)).1.le
      · rw [List.mem_singleton.mp he]
    · intro e he
      have hafter := hordered.2.2 _ (List.mem_append_right _ (List.mem_singleton_self _)) e he
      exact decide_eq_false (Nat.not_le.mpr hafter.1)
  rw [sourceByte, if_neg hs.ne_nil, hpoint, Nat.add_sub_cancel, hmap,
    List.getElem?_append_right (le_refl _), Nat.sub_self]
  rfl

/-! ## The claim -/

theorem shown_tabless (htab : '\t' ∉ source) : shown tabSize column source = source := by
  induction source generalizing column with
  | nil => rfl
  | cons c rest ih =>
    obtain ⟨hc, hrest⟩ := not_or.mp (mt List.mem_cons.mpr htab)
    rw [shown, piece, if_neg (Ne.symm hc), ih hrest, List.singleton_append]

/-- What a display has to do for its source. -/
structure Faithful (source : List Char) (tabSize : Nat) (d : DisplayText) : Prop where
  sourceByte_mono : Monotone d.sourceByte
  displayByte_mono : Monotone d.displayByte
  inverse : ∀ before after, source = before ++ after →
    d.sourceByte (d.displayByte (byteLen before)) = byteLen before
  deflating : ∀ n, d.displayByte (d.sourceByte n) ≤ n
  pieces : ∀ before c after, source = before ++ c :: after → ∃ x p y, d.text = x ++ p ++ y ∧
    IsPiece (clamped tabSize) x.length c p ∧ d.displayByte (byteLen before) = byteLen x ∧
      d.displayByte (byteLen before + c.utf8Size) = byteLen (x ++ p)

theorem mapped_faithful (source : List Char) (tabSize : Nat) :
    Faithful source tabSize (mapped source tabSize) where
  sourceByte_mono := (mapped_sorted source tabSize).sourceByte_mono
  displayByte_mono := (mapped_sorted source tabSize).displayByte_mono
  inverse before after h := by
    rw [h, mapped_displayByte, mapped_sourceByte]
  deflating := (mapped_sorted source tabSize).displayByte_sourceByte
  pieces before c after h := by
    subst h
    have hnext := mapped_displayByte (before ++ [c]) after tabSize
    have htext := mapped_text (before ++ c :: after) tabSize
    rw [shown_append, Nat.zero_add, shown, ← List.append_assoc] at htext
    rw [List.append_assoc, List.singleton_append, byteLen_append, shown_append, Nat.zero_add, shown,
      shown, List.append_nil] at hnext
    exact ⟨_, _, _, htext, piece_isPiece (clamped_pos tabSize) c, mapped_displayByte _ _ _, hnext⟩

theorem plain_faithful (htab : '\t' ∉ source) :
    Faithful source tabSize { text := source, map := [] } where
  sourceByte_mono m n h := by
    rw [sourceByte, sourceByte, if_pos rfl, if_pos rfl]
    omega
  displayByte_mono m n h := by
    rw [displayByte, displayByte, if_pos rfl, if_pos rfl]
    omega
  inverse before after h := by
    subst h
    simp [sourceByte, displayByte]
  deflating n := by
    rw [displayByte, sourceByte, if_pos rfl, if_pos rfl]
    omega
  pieces before c after h := by
    subst h
    refine ⟨before, [c], after, by simp, ⟨fun _ => rfl, fun hc => ?_⟩, ?_, ?_⟩
    · exact absurd (by simp [hc]) htab
    · simp [displayByte]
    · simp [displayByte]

/-- **Tab expansion maps positions faithfully**, and the path for a text without tabs agrees with the
other one. -/
theorem displayText_faithful (source : List Char) (tabSize : Nat) :
    Faithful source tabSize (DisplayText.new source tabSize) ∧
      ('\t' ∉ source → (mapped source tabSize).text = (DisplayText.new source tabSize).text ∧
        ∀ before after, source = before ++ after →
          (mapped source tabSize).displayByte (byteLen before) =
              (DisplayText.new source tabSize).displayByte (byteLen before) ∧
            (mapped source tabSize).sourceByte (byteLen before) =
              (DisplayText.new source tabSize).sourceByte (byteLen before)) := by
  rw [DisplayText.new]
  constructor
  · split
    · rename_i htab
      exact plain_faithful htab
    · exact mapped_faithful source tabSize
  · intro htab
    rw [if_pos htab]
    refine ⟨by rw [mapped_text, shown_tabless htab], ?_⟩
    rintro before after rfl
    have hbefore : '\t' ∉ before := fun h => htab (List.mem_append_left _ h)
    have hdisplay := mapped_displayByte before after tabSize
    have hsource := mapped_sourceByte before after tabSize
    rw [shown_tabless hbefore] at hdisplay hsource
    rw [hdisplay, hsource]
    simp [displayByte, sourceByte]

end Layout
end Proof
end Diffz
