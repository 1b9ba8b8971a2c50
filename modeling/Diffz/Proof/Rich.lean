import Diffz.Core.Rich
import Diffz.Proof.Patch.Numbers

/-!
# What the rich diff shows of a hunk

Every block of a side is shown once, in order. Two blocks that are shown together are the same where
their texts are the same up to the white space at the end: the pairs of the subsequence have equal
texts, and a pair between two of them has not, for it would have made the subsequence longer.
-/

set_option autoImplicit false

namespace Diffz
namespace Proof
namespace Rich

open Diffz.Rich
open Diffz.Proof.Patch (HunkInv)

/-! ## Blocks -/

/-- The spans are inside the lines, and none is empty. -/
theorem blocksFrom_bounds (i : Nat) (lines : List String) :
    ∀ r ∈ blocksFrom i lines, i ≤ r.1 ∧ r.1 < r.2 ∧ r.2 ≤ i + lines.length := by
  induction i, lines using blocksFrom.induct with
  | case1 i => simp [blocksFrom]
  | case2 i line rest hblank ih =>
    rw [blocksFrom, if_pos hblank]
    intro r hr
    have := ih r hr
    simp only [List.length_cons]
    omega
  | case3 i line rest hblank ch len hopen body hbody ih =>
    rw [blocksFrom, if_neg hblank, hopen]
    dsimp only
    intro r hr
    split at hr
    case isFalse h => exact absurd hbody h
    rcases List.mem_cons.mp hr with rfl | hr
    · simp only [List.length_cons]
      omega
    · have := ih r hr
      simp only [List.length_drop, List.length_cons] at this ⊢
      omega
  | case4 i line rest hblank ch len hopen body hbody =>
    rw [blocksFrom, if_neg hblank, hopen]
    dsimp only
    intro r hr
    split at hr
    case isTrue h => exact absurd h hbody
    obtain rfl := List.mem_singleton.mp hr
    simp only [List.length_cons]
    omega
  | case5 i line rest hblank hopen hheading ih =>
    rw [blocksFrom, if_neg hblank, hopen]
    intro r hr
    simp only [if_pos hheading, List.mem_cons] at hr
    rcases hr with rfl | hr
    · simp only [List.length_cons]
      omega
    · have := ih r hr
      simp only [List.length_cons]
      omega
  | case6 i line rest hblank hopen hheading text ih =>
    rw [blocksFrom, if_neg hblank, hopen]
    intro r hr
    simp only [if_neg hheading, List.mem_cons] at hr
    have htext : text ≤ rest.length := (List.takeWhile_sublist _).length_le
    rcases hr with rfl | hr
    · simp only [List.length_cons]
      omega
    · have := ih r hr
      simp only [List.length_drop, List.length_cons] at this ⊢
      omega

/-! ## Sides -/

variable {h : Hunk} {side : Side}

/-- The lines of a hunk on a side. -/
def sideLines (h : Hunk) (side : Side) : List String :=
  (h.rows.filter fun r => (r.number side).isSome).map (·.text)

/-- The side a hunk is shown from. -/
def hunkSide (h : Hunk) : Side → HunkSide
  | .left => oldSide h
  | .right => newSide h

theorem filterMap_eq_map_filter {α β : Type} (f : α → Option β) (d : β) (l : List α) :
    l.filterMap f = (l.filter fun a => (f a).isSome).map fun a => (f a).getD d := by
  induction l with
  | nil => rfl
  | cons a l ih => cases hf : f a <;> simp [hf, ih]

/-- The rows that are kept are those that have a number. -/
theorem kept_eq (hi : HunkInv h) : (h.rows.filter fun r => r.kind ≠ .added) =
      h.rows.filter (fun r => (r.number .left).isSome) ∧
    (h.rows.filter fun r => r.kind ≠ .removed) =
      h.rows.filter fun r => (r.number .right).isSome := by
  constructor
  · refine List.filter_congr fun r hr => ?_
    have hshape := hi.shape r hr .left
    cases hk : r.kind <;> simp_all [RowKind.on]
  · refine List.filter_congr fun r hr => ?_
    have hshape := hi.shape r hr .right
    cases hk : r.kind <;> simp_all [RowKind.on]

theorem hunkSide_eq (hi : HunkInv h) (side : Side) : hunkSide h side =
    { lines := sideLines h side
      nums := List.range' (h.start side) (h.count side)
      blocks := blocks (sideLines h side) } := by
  obtain ⟨hleft, hright⟩ := kept_eq hi
  have hnums := hi.numbers side
  rw [filterMap_eq_map_filter _ 0] at hnums
  cases side with
  | left =>
    simp only [hunkSide, oldSide, buildSide]
    rw [hleft, sideLines, ← hnums]
    rfl
  | right =>
    simp only [hunkSide, newSide, buildSide]
    rw [hright, sideLines, ← hnums]
    rfl

theorem sideLines_length (hi : HunkInv h) (side : Side) :
    (sideLines h side).length = h.count side := by
  have hlen := congrArg List.length (hi.numbers side)
  rw [filterMap_eq_map_filter _ 0] at hlen
  simpa [sideLines] using hlen

/-! ## What is shown -/

/-- What an item of the rich diff shows: a block of each side, or one of one side. -/
inductive Shown
  | both (i j : Nat)
  | old (i : Nat)
  | new (j : Nat)
deriving DecidableEq

def Shown.old? : Shown → Option Nat
  | .both i _ => some i
  | .old i => some i
  | .new _ => none

def Shown.new? : Shown → Option Nat
  | .both _ j => some j
  | .old _ => none
  | .new j => some j

/-- Two blocks are shown as the same where they have one text. -/
def shown (old new : HunkSide) : Shown → RichBlock
  | .both i j =>
    block (if old.norm i = new.norm j then .same else .changed) (some (i, old)) (some (j, new))
  | .old i => block .removed (some (i, old)) none
  | .new j => block .added none (some (j, new))

/-- The items show the blocks of each side from a place up to another one, each once and in order. -/
def Shows (old new : HunkSide) (i oldEnd j newEnd : Nat) (items : List RichBlock) : Prop :=
  ∃ p : List Shown, items = p.map (shown old new) ∧
    p.filterMap Shown.old? = List.range' i (oldEnd - i) ∧
    p.filterMap Shown.new? = List.range' j (newEnd - j)

section Shows

variable {old new : HunkSide} {i j k l m n c d : Nat} {items items' : List RichBlock}

theorem range'_join (hij : i ≤ j) (hjk : j ≤ k) :
    List.range' i (j - i) ++ List.range' j (k - j) = List.range' i (k - i) := by
  obtain ⟨c, rfl⟩ := Nat.exists_eq_add_of_le hij
  obtain ⟨d, rfl⟩ := Nat.exists_eq_add_of_le hjk
  have hsum : i + c + d - i = c + d := by omega
  simp [hsum]

theorem Shows.append (h : Shows old new i k j l items) (h' : Shows old new k m l n items')
    (hik : i ≤ k) (hkm : k ≤ m) (hjl : j ≤ l) (hln : l ≤ n) :
    Shows old new i m j n (items ++ items') := by
  obtain ⟨p, rfl, hold, hnew⟩ := h
  obtain ⟨q, rfl, hold', hnew'⟩ := h'
  refine ⟨p ++ q, by simp, ?_, ?_⟩
  · rw [List.filterMap_append, hold, hold', range'_join hik hkm]
  · rw [List.filterMap_append, hnew, hnew', range'_join hjl hln]

theorem shows_nil : Shows old new i i j j [] :=
  ⟨[], rfl, by simp, by simp⟩

theorem shows_same (h : old.norm i = new.norm j) :
    Shows old new i (i + 1) j (j + 1) [block .same (some (i, old)) (some (j, new))] :=
  ⟨[.both i j], by simp [shown, h], by simp [Shown.old?], by simp [Shown.new?]⟩

theorem shows_changed (hne : ∀ t < c, old.norm (i + t) ≠ new.norm (j + t)) :
    Shows old new i (i + c) j (j + c)
      ((List.range c).map fun t => block .changed (some (i + t, old)) (some (j + t, new))) := by
  refine ⟨(List.range c).map fun t => .both (i + t) (j + t), ?_, ?_, ?_⟩
  · rw [List.map_map]
    refine List.map_congr_left fun t ht => ?_
    simp [shown, hne t (List.mem_range.mp ht)]
  · simp [List.filterMap_map, Function.comp_def, Shown.old?, List.filterMap_eq_map',
      List.range'_eq_map_range]
  · simp [List.filterMap_map, Function.comp_def, Shown.new?, List.filterMap_eq_map',
      List.range'_eq_map_range]

theorem shows_removed (hd : k = i + c + d) : Shows old new (i + c) k j j
    ((List.range' c d).map fun t => block .removed (some (i + t, old)) none) := by
  subst hd
  refine ⟨(List.range' c d).map fun t => .old (i + t), by simp [shown], ?_, ?_⟩
  · simp [List.filterMap_map, Function.comp_def, Shown.old?, List.filterMap_eq_map',
      List.map_add_range']
  · simp [List.filterMap_map, Function.comp_def, Shown.new?]

theorem shows_added (hd : l = j + c + d) : Shows old new i i (j + c) l
    ((List.range' c d).map fun t => block .added none (some (j + t, new))) := by
  subst hd
  refine ⟨(List.range' c d).map fun t => .new (j + t), by simp [shown], ?_, ?_⟩
  · simp [List.filterMap_map, Function.comp_def, Shown.old?]
  · simp [List.filterMap_map, Function.comp_def, Shown.new?, List.filterMap_eq_map',
      List.map_add_range']

/-- Blocks that stand opposite each other have different texts, and the rest of the longer side is
shown alone. -/
theorem shows_between (hik : i ≤ k) (hjl : j ≤ l)
    (hne : ∀ t, i + t < k → j + t < l → old.norm (i + t) ≠ new.norm (j + t)) :
    Shows old new i k j l (between old new i j k l) := by
  have hchanged : Shows old new i (i + min (k - i) (l - j)) j (j + min (k - i) (l - j)) _ :=
    shows_changed fun t ht => hne t (by omega) (by omega)
  have hremoved : Shows old new (i + min (k - i) (l - j)) k (j + min (k - i) (l - j))
      (j + min (k - i) (l - j)) _ :=
    shows_removed (d := k - i - min (k - i) (l - j)) (by omega)
  have hadded : Shows old new k k (j + min (k - i) (l - j)) l _ :=
    shows_added (d := l - j - min (k - i) (l - j)) (by omega)
  exact (hchanged.append hremoved (by omega) (by omega) (by omega) (by omega)).append hadded
    (by omega) (by omega) (by omega) (by omega)

end Shows

/-! ## The loop -/

section Loop

variable {old new : HunkSide} {i j : Nat} {m : List (Nat × Nat)} {a b : List String}

theorem norm_at {side : HunkSide} {l : List String} {z : String} {t : Nat}
    (hl : (norms side).drop i = l) (ht : l[t]? = some z) :
    i + t < side.blocks.length ∧ side.norm (i + t) = z := by
  rw [← hl, List.getElem?_drop, norms, List.getElem?_map] at ht
  obtain ⟨k, hk, hz⟩ := Option.map_eq_some_iff.mp ht
  obtain ⟨hlt, rfl⟩ := List.getElem?_eq_some_iff.mp hk
  rw [List.getElem_range] at hz
  exact ⟨by simpa using hlt, hz⟩

theorem norms_at {side : HunkSide} {l : List String} {t : Nat} (hl : (norms side).drop i = l)
    (ht : i + t < side.blocks.length) : l[t]? = some (side.norm (i + t)) := by
  rw [← hl, List.getElem?_drop, norms, List.getElem?_map, List.getElem?_range ht]
  rfl

theorem shows_gap {k l : Nat} (ha : (norms old).drop i = a) (hb : (norms new).drop j = b)
    (hgap : Opposed (a.take (k - i)) (b.take (l - j))) (hik : i ≤ k) (hjl : j ≤ l)
    (hk : k ≤ old.blocks.length) (hl : l ≤ new.blocks.length) :
    Shows old new i k j l (between old new i j k l) := by
  refine shows_between hik hjl fun t hit hjt => hgap.ne (t := t) ?_ ?_
  · rw [List.getElem?_take_of_lt (by omega)]
    exact norms_at ha (by omega)
  · rw [List.getElem?_take_of_lt (by omega)]
    exact norms_at hb (by omega)

theorem emitLoop_end {fuel : Nat} : emitLoop old new (fuel + 1) old.blocks.length
    new.blocks.length m = some [] := by
  simp [emitLoop]

theorem emitLoop_same {fuel : Nat} (hi : i < old.blocks.length) :
    emitLoop old new (fuel + 1) i j ((i, j) :: m) =
      (emitLoop old new fuel (i + 1) (j + 1) m).map
        (block .same (some (i, old)) (some (j, new)) :: ·) := by
  simp [emitLoop, hi]

theorem emitLoop_between {fuel k l : Nat} (hik : i ≤ k) (hjl : j ≤ l) (hne : ¬ (i = k ∧ j = l))
    (hk : k < old.blocks.length) :
    emitLoop old new (fuel + 1) i j ((k, l) :: m) =
      (emitLoop old new fuel k l ((k, l) :: m)).map (between old new i j k l ++ ·) := by
  have hi : i < old.blocks.length := by omega
  have hnot : ¬ (k < i ∨ l < j) := by omega
  simp [emitLoop, hi, hne, hnot]

/-- **The loop shows all blocks from its place on**, along an alignment that leaves no equal blocks
opposite each other, with one round for each block at most. -/
theorem emitLoop_shows (h : Alignment Opposed i j a b m) {fuel : Nat}
    (ha : (norms old).drop i = a) (hb : (norms new).drop j = b) (hi : i ≤ old.blocks.length)
    (hj : j ≤ new.blocks.length)
    (hfuel : old.blocks.length - i + (new.blocks.length - j) < fuel) :
    ∃ items, emitLoop old new fuel i j m = some items ∧
      Shows old new i old.blocks.length j new.blocks.length items := by
  induction h generalizing fuel with
  | @done i j a b hgap =>
    obtain ⟨fuel, rfl⟩ : ∃ f, fuel = f + 1 := ⟨fuel - 1, by omega⟩
    by_cases hend : i < old.blocks.length ∨ j < new.blocks.length
    · obtain ⟨fuel, rfl⟩ : ∃ f, fuel = f + 1 := ⟨fuel - 1, by omega⟩
      have hnot : ¬ (old.blocks.length < i ∨ new.blocks.length < j) := by omega
      refine ⟨between old new i j old.blocks.length new.blocks.length, ?_, ?_⟩
      · rw [emitLoop, if_pos hend]
        simp [hnot, emitLoop_end]
      · refine shows_gap ha hb ?_ hi hj (le_refl _) (le_refl _)
        rwa [List.take_of_length_le (by simp [← ha, norms]),
          List.take_of_length_le (by simp [← hb, norms])]
    · obtain rfl : i = old.blocks.length := by omega
      obtain rfl : j = new.blocks.length := by omega
      exact ⟨[], emitLoop_end, shows_nil⟩
  | @pair i j s t a b x m hgap rest ih =>
    obtain ⟨hk, hx⟩ := norm_at (t := s.length) (z := x) ha (by simp)
    obtain ⟨hl, hx'⟩ := norm_at (t := t.length) (z := x) hb (by simp)
    have ha' : (norms old).drop (i + s.length + 1) = a := by
      rw [Nat.add_assoc, ← List.drop_drop, ha]
      simp
    have hb' : (norms new).drop (j + t.length + 1) = b := by
      rw [Nat.add_assoc, ← List.drop_drop, hb]
      simp
    have hsame := shows_same (hx.trans hx'.symm)
    obtain ⟨fuel, rfl⟩ : ∃ f, fuel = f + 1 := ⟨fuel - 1, by omega⟩
    by_cases hat : i = i + s.length ∧ j = j + t.length
    · -- The loop is at the match.
      obtain ⟨items, hloop, hitems⟩ := @ih fuel ha' hb' hk hl (by omega)
      rw [← hat.1] at hsame hitems hloop hk ⊢
      rw [← hat.2] at hsame hitems hloop hl ⊢
      refine ⟨_, ?_, hsame.append hitems (by omega) hk (by omega) hl⟩
      rw [emitLoop_same hk, hloop]
      rfl
    · -- The loop comes to the match first.
      obtain ⟨fuel, rfl⟩ : ∃ f, fuel = f + 1 := ⟨fuel - 1, by omega⟩
      obtain ⟨items, hloop, hitems⟩ := @ih fuel ha' hb' hk hl (by omega)
      have hbetween : Shows old new i (i + s.length) j (j + t.length)
          (between old new i j (i + s.length) (j + t.length)) := by
        refine shows_gap ha hb ?_ (by omega) (by omega) hk.le hl.le
        simpa using hgap
      refine ⟨_, ?_, hbetween.append (hsame.append hitems (by omega) hk (by omega) hl)
        (by omega) (by omega) (by omega) (by omega)⟩
      rw [emitLoop_between (by omega) (by omega) hat hk, emitLoop_same hk, hloop]
      rfl

end Loop

/-! ## The hunk -/

/-- The lines of a side with their numbers, grouped as blocks. -/
def exactSide (h : Hunk) (side : Side) : HunkSide where
  lines := sideLines h side
  nums := List.range' (h.start side) (h.count side)
  blocks := blocks (sideLines h side)

/-- The table of the walk, in words of 16 bits, has the lengths. -/
theorem dp_exact {old new : HunkSide} (h : old.blocks.length * new.blocks.length ≤ 250000) :
    ∀ n ≤ min (norms old).length (norms new).length, wrapU16 n = n := by
  intro n hn
  simp only [norms, List.length_map, List.length_range] at hn
  have hsquare : min old.blocks.length new.blocks.length *
      min old.blocks.length new.blocks.length ≤ 250000 :=
    (Nat.mul_le_mul (min_le_left _ _) (min_le_right _ _)).trans h
  have hmin : min old.blocks.length new.blocks.length ≤ 500 := by
    by_contra hlt
    have hlt : 501 ≤ min old.blocks.length new.blocks.length := by omega
    have := Nat.mul_le_mul hlt hlt
    omega
  exact Nat.mod_eq_of_lt (by omega)

theorem lcs_alignment {old new : HunkSide} {m : List (Nat × Nat)} (h : lcs old new = some m) :
    Alignment Opposed 0 0 (norms old) (norms new) m := by
  unfold lcs at h
  split at h
  · rename_i hempty
    cases h
    refine .done ?_
    rcases hempty with hempty | hempty
    · simp [Opposed, norms, hempty]
    · simp [Opposed, norms, hempty]
  split at h
  · cases h
  rename_i hsmall
  have hexact := dp_exact (Nat.le_of_not_lt hsmall)
  cases h
  refine (walk_alignment _ 0 0 _ _).tight (walk_length ?_ List.drop_zero List.drop_zero).ge
  intro i j hi hj
  have hlen : (norms old).length = old.blocks.length := by simp [norms]
  have hright : entry (dp old new) i (j + 1) =
      lcsLength ((norms old).drop i) ((norms new).drop (j + 1)) :=
    entry_lcsTable hexact hi.le hj
  have hbelow : entry (dp old new) (i + 1) j =
      lcsLength ((norms old).drop (i + 1)) ((norms new).drop j) :=
    entry_lcsTable hexact hi hj.le
  beta_reduce
  rw [hright, hbelow, Bool.and_eq_true, decide_eq_true_eq, decide_eq_true_eq]
  refine ⟨fun h => h.2, fun h => ?_⟩
  by_cases hlast : i + 1 < old.blocks.length
  · simp only [hlast, decide_true, Bool.true_and, decide_eq_false_iff_not, not_le] at h
    exact h.le
  · -- Below the last row there is nothing to match.
    rw [List.drop_eq_nil_of_le (by omega)]
    exact Nat.zero_le _

theorem unpaired_shows (old new : HunkSide) :
    Shows old new 0 old.blocks.length 0 new.blocks.length (unpaired old new) := by
  refine ⟨(List.range old.blocks.length).map .old ++ (List.range new.blocks.length).map .new,
    ?_, ?_, ?_⟩
  · simp [unpaired, shown, Function.comp_def]
  · simp [List.filterMap_map, Function.comp_def, Shown.old?, List.range_eq_range']
  · simp [List.filterMap_map, Function.comp_def, Shown.new?, List.range_eq_range']

/-- The loop of a hunk ends, and shows the blocks of both sides. -/
theorem emitHunk_shows {h : Hunk} (hi : HunkInv h) : ∃ items, emitHunk h = some items ∧
    Shows (exactSide h .left) (exactSide h .right) 0 (exactSide h .left).blocks.length
      0 (exactSide h .right).blocks.length items := by
  have hold : oldSide h = exactSide h .left := hunkSide_eq hi .left
  have hnew : newSide h = exactSide h .right := hunkSide_eq hi .right
  rw [emitHunk, hold, hnew]
  cases hlcs : lcs (exactSide h .left) (exactSide h .right) with
  | none => exact ⟨_, rfl, unpaired_shows _ _⟩
  | some m =>
    exact emitLoop_shows (lcs_alignment hlcs) List.drop_zero List.drop_zero (Nat.zero_le _)
      (Nat.zero_le _) (by omega)

/-- A heading that stays, and a paragraph that is rewritten. -/
def rewritten : Hunk where
  oldStart := 1
  oldCount := 3
  newStart := 1
  newCount := 3
  sectionText := ""
  rows :=
    [{ oldLine := some 1, newLine := some 1, text := "# Doc", ending := .lf, kind := .context },
     { oldLine := some 2, newLine := some 2, text := "", ending := .lf, kind := .context },
     { oldLine := some 3, newLine := none, text := "old", ending := .lf, kind := .removed },
     { oldLine := none, newLine := some 3, text := "new", ending := .lf, kind := .added }]

theorem rewritten_inv : HunkInv rewritten where
  numbers := by
    intro side
    cases side <;> decide
  shape := by
    intro r hr side
    simp only [rewritten, List.mem_cons, List.not_mem_nil, or_false] at hr
    rcases hr with rfl | rfl | rfl | rfl <;> cases side <;> simp [PatchRow.number, RowKind.on]

example : (emitHunk rewritten).map (List.map (·.kind)) = some [.same, .changed] := by
  decide +kernel

end Rich
end Proof
end Diffz
