import Diffz.Proof.Patch.Run

/-!
# Line numbers identify rows

Drafts, eligibility, blame and copying all look a row up by its number on one side. This module
proves what they rely on: the rows of an accepted hunk carry, on each side, exactly the range its
header announces (`HunkInv`), the ranges of one file follow each other, and every `u32` addition
that leads there is exact.

`RowRun` changes a hunk in two ways, pushing a row and marking the last one, so `Counted` needs
two step lemmas; the run lemma `RowRun.counted` is then the induction.
-/

set_option autoImplicit false

namespace Diffz

/-- The first line of the hunk's range on one side. -/
def Hunk.start (h : Hunk) : Side → Nat
  | .left => h.oldStart
  | .right => h.newStart

/-- The length of the hunk's range on one side. -/
def Hunk.count (h : Hunk) : Side → Nat
  | .left => h.oldCount
  | .right => h.newCount

/-- The sides a row of this kind is on. -/
def RowKind.on : RowKind → Side → Prop
  | .context, _ => True
  | .added, side => side = .right
  | .removed, side => side = .left

namespace Proof
namespace Patch

/-- The representation invariant of a hunk. -/
structure HunkInv (h : Hunk) : Prop where
  numbers : ∀ side, h.rows.filterMap (·.number side) = List.range' (h.start side) (h.count side)
  shape : ∀ r ∈ h.rows, ∀ side, (r.number side).isSome ↔ r.kind.on side

/-- The range of a hunk ends inside `u32` on both sides. -/
def Fits (h : Hunk) : Prop := ∀ side, h.start side + h.count side ≤ u32Max

/-- `h` starts where `g` has ended, on both sides. -/
def Before (g h : Hunk) : Prop := ∀ side, g.start side + g.count side ≤ h.start side

/-! ## Headers -/

theorem pair_ok {s : List Char} {line : Nat} {r : Nat × Nat} (h : pair s line = .ok r) :
    r.1 + r.2 ≤ u32Max ∧ (0 < r.2 → 0 < r.1) := by
  unfold pair at h
  dsimp only at h
  split at h
  · cases h
  · rename_i start hs
    split at h
    · cases h
    · rename_i count _
      split at h
      · cases h
      · rename_i hc
        cases h
        have hle := parseU32_le hs
        by_cases hpos : 0 < count
        · have hn : checkedAdd start count ≠ none := fun e => hc ⟨hpos, .inr e⟩
          have hz : start ≠ 0 := fun e => hc ⟨hpos, .inl e⟩
          have hsum : start + count ≤ u32Max := by
            by_contra hgt
            exact hn (checkedAdd_eq_none hgt)
          exact ⟨hsum, fun _ => Nat.pos_of_ne_zero hz⟩
        · refine ⟨?_, fun h => absurd h hpos⟩
          dsimp only
          omega

theorem hunkHeader_ok {l : Bytes} {i : Nat} {h : Hunk} (hh : hunkHeader l i = .ok h) :
    Fits h ∧ (∀ side, 0 < h.count side → 0 < h.start side) ∧ h.rows = [] := by
  unfold hunkHeader at hh
  obtain ⟨s, _, hh⟩ := ok_of_bind hh
  split at hh
  · cases hh
  · split at hh
    · cases hh
    · split at hh
      · cases hh
      · obtain ⟨o, ho, hh⟩ := ok_of_bind hh
        obtain ⟨n, hn, hh⟩ := ok_of_bind hh
        cases hh
        obtain ⟨ho, ho'⟩ := pair_ok ho
        obtain ⟨hn, hn'⟩ := pair_ok hn
        refine ⟨fun side => ?_, fun side => ?_, rfl⟩
        · cases side
          · exact ho
          · exact hn
        · cases side
          · exact ho'
          · exact hn'

/-! ## Rows -/

/-- How many rows each side has so far. -/
def taken (old new : Nat) : Side → Nat
  | .left => old
  | .right => new

/-- The invariant of the row loop: `old` and `new` rows of the announced ranges are there. -/
structure Counted (h : Hunk) (old new : Nat) : Prop where
  numbers : ∀ side,
    h.rows.filterMap (·.number side) = List.range' (h.start side) (taken old new side)
  le : ∀ side, taken old new side ≤ h.count side
  shape : ∀ r ∈ h.rows, ∀ side, (r.number side).isSome ↔ r.kind.on side

/-- The same ranges; the loops never change them. -/
def SameRange (h h' : Hunk) : Prop :=
  ∀ side, h'.start side = h.start side ∧ h'.count side = h.count side

theorem SameRange.refl (h : Hunk) : SameRange h h := fun _ => ⟨rfl, rfl⟩

theorem SameRange.trans {h h₁ h₂ : Hunk} (a : SameRange h h₁) (b : SameRange h₁ h₂) :
    SameRange h h₂ := fun side =>
  ⟨(b side).1.trans (a side).1, (b side).2.trans (a side).2⟩

theorem SameRange.fits {h h' : Hunk} (a : SameRange h h') (hf : Fits h) : Fits h' := by
  intro side
  rw [(a side).1, (a side).2]
  exact hf side

theorem pushRow_sameRange (h : Hunk) (row : PatchRow) : SameRange h (pushRow h row) := by
  intro side
  cases side <;> exact ⟨rfl, rfl⟩

/-- The EOF marker changes the last row's text and ending only. -/
theorem markLast_ok {h h' : Hunk} {i : Nat} (hm : markLast h i = .ok h') :
    ∃ init last row, h.rows = init ++ [last] ∧ h' = { h with rows := init ++ [row] } ∧
      row.kind = last.kind ∧ ∀ side, row.number side = last.number side := by
  unfold markLast at hm
  split at hm
  · cases hm
  · rename_i last hlast
    obtain ⟨init, hinit⟩ := List.getLast?_eq_some_iff.mp hlast
    split at hm
    · cases hm
    · rename_i row hrow
      cases hm
      refine ⟨init, last, row, hinit, by rw [hinit]; simp, ?_⟩
      unfold markNoFinalNewline at hrow
      split at hrow
      · cases hrow
      · cases hrow
        exact ⟨rfl, fun side => by cases side <;> rfl⟩
      · cases hrow
        exact ⟨rfl, fun side => by cases side <;> rfl⟩

theorem markLast_sameRange {h h' : Hunk} {i : Nat} (hm : markLast h i = .ok h') :
    SameRange h h' := by
  obtain ⟨_, _, _, _, rfl, _⟩ := markLast_ok hm
  intro side
  cases side <;> exact ⟨rfl, rfl⟩

theorem markLast_counted {h h' : Hunk} {i old new : Nat} (hm : markLast h i = .ok h')
    (hc : Counted h old new) : Counted h' old new := by
  have hs := markLast_sameRange hm
  obtain ⟨init, last, row, hrows, rfl, hk, hn⟩ := markLast_ok hm
  refine ⟨fun side => ?_, fun side => ?_, fun r hr side => ?_⟩
  · rw [(hs side).1, ← hc.numbers side, hrows]
    simp only [List.filterMap_append, List.filterMap_cons, List.filterMap_nil, hn side]
  · rw [(hs side).2]
    exact hc.le side
  · rcases List.mem_append.mp hr with hr | hr
    · exact hc.shape r (by rw [hrows]; exact List.mem_append_left _ hr) side
    · obtain rfl := List.mem_singleton.mp hr
      rw [hn side, hk]
      exact hc.shape last (by rw [hrows]; simp) side

/-- A row on a side takes the next number there. -/
theorem SideStep.number {on : Prop} {start count taken taken₁ : Nat} {number : Option Nat}
    (hs : SideStep on start count taken number taken₁) (hf : start + count ≤ u32Max) :
    (number.isSome ↔ on) ∧ taken₁ ≤ max taken count ∧
      List.range' start taken ++ number.toList = List.range' start taken₁ := by
  rcases hs with ⟨hon, hlt, rfl, n, hn, rfl⟩ | ⟨hoff, rfl, rfl⟩
  · have hadd : start + taken ≤ u32Max := by omega
    have hone : taken + 1 ≤ u32Max := by omega
    rw [checkedAdd_eq_some hadd] at hn
    cases hn
    rw [wrappingAdd_eq hone]
    refine ⟨by simp [hon], by omega, ?_⟩
    rw [List.range'_concat]
    simp
  · exact ⟨by simp [hoff], by omega, by simp⟩

theorem pushRow_counted {h : Hunk} {old new old₁ new₁ : Nat} {l : Bytes} {row : PatchRow}
    (hf : Fits h) (hc : Counted h old new) (hr : RowOf h old new l row old₁ new₁) :
    Counted (pushRow h row) old₁ new₁ := by
  have hs := pushRow_sameRange h row
  -- Both sides go through `SideStep.number`; they differ in which kind of row is absent.
  have key : ∀ side, ((row.number side).isSome ↔ row.kind.on side) ∧
      taken old₁ new₁ side ≤ max (taken old new side) (h.count side) ∧
      List.range' (h.start side) (taken old new side) ++ (row.number side).toList =
        List.range' (h.start side) (taken old₁ new₁ side) := by
    intro side
    cases side with
    | left =>
      obtain ⟨h1, h2, h3⟩ := hr.oldSide.number (hf .left)
      refine ⟨h1.trans ?_, h2, h3⟩
      cases row.kind <;> simp [RowKind.on]
    | right =>
      obtain ⟨h1, h2, h3⟩ := hr.newSide.number (hf .right)
      refine ⟨h1.trans ?_, h2, h3⟩
      cases row.kind <;> simp [RowKind.on]
  refine ⟨fun side => ?_, fun side => ?_, fun r hm side => ?_⟩
  · rw [(hs side).1, ← (key side).2.2, ← hc.numbers side]
    cases hn : row.number side <;> simp [pushRow, hn]
  · rw [(hs side).2]
    exact Nat.le_trans (key side).2.1 (Nat.max_le.mpr ⟨hc.le side, Nat.le_refl _⟩)
  · rcases List.mem_append.mp hm with hm | hm
    · exact hc.shape r hm side
    · obtain rfl := List.mem_singleton.mp hm
      exact (key side).1

/-- The row loop keeps the ranges and fills them. -/
theorem RowRun.counted {limits : ParseLimits} {h h' : Hunk} {old new : Nat} {c c' : Cursor}
    (hr : RowRun limits h old new c h' c') (hf : Fits h) (hc : Counted h old new) :
    SameRange h h' ∧ Counted h' h'.oldCount h'.newCount := by
  induction hr with
  | @done h old new c hd =>
    have ho := hc.le .left
    have hn := hc.le .right
    simp only [taken, Hunk.count] at ho hn
    have ho' : old = h.oldCount := by unfold Due at hd; omega
    have hn' : new = h.newCount := by unfold Due at hd; omega
    subst ho' hn'
    exact ⟨.refl h, hc⟩
  | marker _ hm _ ih =>
    have hs := markLast_sameRange hm
    obtain ⟨h1, h2⟩ := ih (hs.fits hf) (markLast_counted hm hc)
    exact ⟨hs.trans h1, h2⟩
  | row _ _ hw _ ih =>
    obtain ⟨h1, h2⟩ := ih ((pushRow_sameRange _ _).fits hf)
      (pushRow_counted hf hc (hunkRow_ok hw).1)
    exact ⟨(pushRow_sameRange _ _).trans h1, h2⟩

theorem Counted.inv {h : Hunk} (hc : Counted h h.oldCount h.newCount) : HunkInv h := by
  refine ⟨fun side => ?_, hc.shape⟩
  rw [hc.numbers side]
  cases side <;> rfl

/-- Every accepted hunk has the representation invariant, fits, and follows the hunk before it. -/
theorem HunkRun.inv {limits : ParseLimits} {hunks : List Hunk} {totalRows i : Nat} {l : Bytes}
    {rest : List Bytes} {h : Hunk} {c : Cursor}
    (hh : HunkRun limits hunks totalRows i l rest h c) :
    HunkInv h ∧ Fits h ∧ (∀ side, 0 < h.count side → 0 < h.start side) ∧
      ∀ prev, hunks.getLast? = some prev → Fits prev → Before prev h := by
  obtain ⟨h₀, h₁, c₁, hhead, hover, hrows, hmark⟩ := hh.run
  obtain ⟨hf, hpos, hnil⟩ := hunkHeader_ok hhead
  have hc₀ : Counted h₀ 0 0 :=
    ⟨fun side => by cases side <;> simp [hnil, taken], fun side => by cases side <;> simp [taken],
      fun r hr => by simp [hnil] at hr⟩
  obtain ⟨hs, hc⟩ := hrows.counted hf hc₀
  have hm : SameRange h₁ h ∧ Counted h h.oldCount h.newCount := by
    cases hmark with
    | absent _ => exact ⟨.refl _, hc⟩
    | present hm =>
      have hs' := markLast_sameRange hm
      have hc' := markLast_counted hm hc
      have ho := (hs' .left).2
      have hn := (hs' .right).2
      simp only [Hunk.count] at ho hn
      rw [← ho, ← hn] at hc'
      exact ⟨hs', hc'⟩
  have hs := hs.trans hm.1
  refine ⟨hm.2.inv, hs.fits hf, fun side => ?_, fun prev hp hfp side => ?_⟩
  · rw [(hs side).1, (hs side).2]
    exact hpos side
  · have hno := hover prev hp
    unfold overlaps at hno
    simp only [Bool.or_eq_false_iff, decide_eq_false_iff_not, Nat.not_lt] at hno
    rw [(hs side).1]
    have hl := hfp .left
    have hr := hfp .right
    simp only [Hunk.start, Hunk.count] at hl hr
    rw [saturatingAdd_eq hl, saturatingAdd_eq hr] at hno
    cases side
    · exact hno.1
    · exact hno.2

/-! ## Files -/

/-- The hunks of one file, as far as they have been read. -/
structure HunksInv (hunks : List Hunk) : Prop where
  inv : ∀ h ∈ hunks, HunkInv h
  fits : ∀ h ∈ hunks, Fits h
  pos : ∀ h ∈ hunks, ∀ side, 0 < h.count side → 0 < h.start side
  ordered : hunks.Pairwise Before

theorem HunksInv.nil : HunksInv [] :=
  ⟨by simp, by simp, by simp, .nil⟩

theorem HunksInv.tail {h : Hunk} {hunks : List Hunk} (hi : HunksInv (h :: hunks)) :
    HunksInv hunks where
  inv := fun g hg => hi.inv g (List.mem_cons_of_mem h hg)
  fits := fun g hg => hi.fits g (List.mem_cons_of_mem h hg)
  pos := fun g hg => hi.pos g (List.mem_cons_of_mem h hg)
  ordered := hi.ordered.of_cons

theorem HunksInv.push {limits : ParseLimits} {hunks : List Hunk} {totalRows i : Nat} {l : Bytes}
    {rest : List Bytes} {h : Hunk} {c : Cursor} (hi : HunksInv hunks)
    (hh : HunkRun limits hunks totalRows i l rest h c) : HunksInv (hunks ++ [h]) := by
  obtain ⟨hinv, hf, hpos, hbefore⟩ := hh.inv
  refine ⟨fun g hg => ?_, fun g hg => ?_, fun g hg => ?_, ?_⟩
  · rcases List.mem_append.mp hg with hg | hg
    · exact hi.inv g hg
    · exact List.mem_singleton.mp hg ▸ hinv
  · rcases List.mem_append.mp hg with hg | hg
    · exact hi.fits g hg
    · exact List.mem_singleton.mp hg ▸ hf
  · rcases List.mem_append.mp hg with hg | hg
    · exact hi.pos g hg
    · exact List.mem_singleton.mp hg ▸ hpos
  · -- The source compares with the last hunk only; the earlier ones end before that one starts.
    rw [List.pairwise_append]
    refine ⟨hi.ordered, List.pairwise_singleton _ _, fun g hg h' hh' side => ?_⟩
    obtain rfl := List.mem_singleton.mp hh'
    rcases List.eq_nil_or_concat hunks with rfl | ⟨init, prev, rfl⟩
    · simp at hg
    · rw [List.concat_eq_append] at *
      have hb := hbefore prev (by simp) (hi.fits prev (by simp)) side
      rcases List.mem_append.mp hg with hg | hg
      · have hgp := (List.pairwise_append.mp hi.ordered).2.2 g hg prev (by simp) side
        omega
      · exact List.mem_singleton.mp hg ▸ hb

theorem applyHeader_hunks {f f' : FileChange} {i : Nat} {l : Bytes}
    (h : applyHeader f i l = .ok f') : f'.hunks = f.hunks := by
  unfold applyHeader at h
  split at h
  case h_11 => cases h; rfl
  case h_12 =>
    obtain ⟨s, _, h⟩ := ok_of_bind h
    cases h
    unfold indexLine
    dsimp only
    split <;> split <;> rfl
  case h_13 =>
    split at h
    · cases h; rfl
    · obtain ⟨s, _, h⟩ := ok_of_bind h
      cases h; rfl
  all_goals
    obtain ⟨p, _, h⟩ := ok_of_bind h
    cases h; rfl

theorem SectionRun.hunksInv {limits : ParseLimits} {f f' : FileChange} {c c' : Cursor}
    (h : SectionRun limits f c f' c') (hi : HunksInv f.hunks) : HunksInv f'.hunks := by
  induction h with
  | stop _ => exact hi
  | hunk _ _ hh _ ih => exact ih (hi.push hh)
  | blank _ _ ih => exact ih hi
  | trailer _ => exact hi
  | header _ _ _ ha _ ih => exact ih (applyHeader_hunks ha ▸ hi)

theorem finishFile_hunks {sha256 : Bytes → Bytes} {f f' : FileChange} {i : Nat}
    (h : finishFile sha256 f i = .ok f') : f'.hunks = f.hunks := by
  unfold finishFile at h
  split at h
  · cases h
  · cases h
    dsimp only
    split <;> split <;> split <;> rfl

theorem FileRun.hunksInv {sha256 : Bytes → Bytes} {limits : ParseLimits} {totalRows i : Nat}
    {l : Bytes} {rest : List Bytes} {f : FileChange} {c : Cursor}
    (h : FileRun sha256 limits totalRows i l rest f c) : HunksInv f.hunks := by
  obtain ⟨old, new, f₁, _, hs, hfin⟩ := h.run
  rw [finishFile_hunks hfin]
  exact hs.hunksInv .nil

/-- A property of every accepted section is one of every file of the report. -/
theorem FilesRun.forall_files {sha256 : Bytes → Bytes} {limits : ParseLimits}
    {P : FileChange → Prop} {files out : List FileChange} {totalRows i : Nat} {lines : List Bytes}
    (h : FilesRun sha256 limits files totalRows i lines out) (hfiles : ∀ f ∈ files, P f)
    (step : ∀ totalRows i l rest f c, FileRun sha256 limits totalRows i l rest f c → P f) :
    ∀ f ∈ out, P f := by
  induction h with
  | nil => exact hfiles
  | preamble _ _ ih => exact ih hfiles
  | between _ _ _ ih => exact ih hfiles
  | file _ _ hs _ _ ih =>
    refine ih fun g hg => ?_
    rcases List.mem_append.mp hg with hg | hg
    · exact hfiles g hg
    · exact List.mem_singleton.mp hg ▸ step _ _ _ _ _ _ (fileSection_run hs)

theorem parsePatch_hunksInv {sha256 : Bytes → Bytes} {bytes : Bytes} {limits : ParseLimits}
    {report : PatchReport} (h : parsePatch sha256 bytes limits = .ok report) :
    ∀ f ∈ report.files, HunksInv f.hunks :=
  (parsePatch_run h).forall_files (by simp) fun _ _ _ _ _ _ hf => hf.hunksInv

/-! ## Looking a row up -/

theorem HunksInv.increasing {f : FileChange} (hi : HunksInv f.hunks) (side : Side) :
    (f.allRows.filterMap (·.number side)).Pairwise (· < ·) := by
  unfold FileChange.allRows
  rw [List.filterMap_flatMap, List.flatMap_def, List.pairwise_flatten]
  constructor
  · intro ns hns
    obtain ⟨h, hh, rfl⟩ := List.mem_map.mp hns
    rw [(hi.inv h hh).numbers side]
    exact List.pairwise_lt_range'
  · rw [List.pairwise_map]
    refine hi.ordered.imp_of_mem fun {g h} hg hh hb x hx y hy => ?_
    rw [(hi.inv g hg).numbers side, List.mem_range'_1] at hx
    rw [(hi.inv h hh).numbers side, List.mem_range'_1] at hy
    have := hb side
    omega

/-- In a list whose keys increase, at most one element has a given key. -/
theorem filter_key_length_le_one {α : Type} {key : α → Option Nat} {l : List α}
    (h : (l.filterMap key).Pairwise (· < ·)) (n : Nat) :
    (l.filter fun a => key a = some n).length ≤ 1 := by
  induction l with
  | nil => simp
  | cons a l ih =>
    cases hk : key a with
    | none =>
      simp only [List.filterMap_cons, hk] at h
      simpa [List.filter_cons, hk] using ih h
    | some m =>
      simp only [List.filterMap_cons, hk, List.pairwise_cons] at h
      by_cases hmn : m = n
      · subst hmn
        have hnone : l.filter (fun a => key a = some m) = [] := by
          rw [List.filter_eq_nil_iff]
          intro b hb hbm
          have hmem : m ∈ l.filterMap key := List.mem_filterMap.mpr ⟨b, hb, by simpa using hbm⟩
          exact absurd (h.1 m hmem) (Nat.lt_irrefl m)
        simp [hk, hnone]
      · simpa [List.filter_cons, hk, hmn] using ih h.2

end Patch
end Proof
end Diffz
