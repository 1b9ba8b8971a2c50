import Diffz.Core.Patch
import Diffz.Lib.Fallible

/-!
# What a successful parse did, as a derivation

`parsePatch` answering `ok` is inverted once, here. Each loop gets a relation whose constructors
are the ways one turn of it can go (`RowRun`, `SectionRun`, `FileRun`), with every guard the source
tests on that way as a premise. The invariants of the parser are inductions over these derivations;
none of them unfolds a loop again.
-/

set_option autoImplicit false

namespace Diffz
namespace Proof
namespace Patch

/-! ## Rows -/

/-- More rows are due. -/
def Due (h : Hunk) (old new : Nat) : Prop := old < h.oldCount ∨ new < h.newCount

def pushRow (h : Hunk) (row : PatchRow) : Hunk := { h with rows := h.rows ++ [row] }

inductive RowRun (limits : ParseLimits) :
    Hunk → Nat → Nat → Cursor → Hunk → Cursor → Prop
  | done {h : Hunk} {old new : Nat} {c : Cursor} (hd : ¬ Due h old new) :
      RowRun limits h old new c h c
  /-- The EOF marker inside the hunk. -/
  | marker {h h₁ h' : Hunk} {old new totalRows i : Nat} {rest : List Bytes} {c' : Cursor}
      (hd : Due h old new) (hm : markLast h i = .ok h₁)
      (hr : RowRun limits h₁ old new ⟨totalRows, i + 1, rest⟩ h' c') :
      RowRun limits h old new ⟨totalRows, i, eofMarker :: rest⟩ h' c'
  | row {h h' : Hunk} {old new old₁ new₁ totalRows i : Nat} {l : Bytes} {rest : List Bytes}
      {row : PatchRow} {c' : Cursor} (hd : Due h old new) (hl : l ≠ eofMarker)
      (hw : hunkRow limits h old new totalRows i l = .ok (row, old₁, new₁))
      (hr : RowRun limits (pushRow h row) old₁ new₁ ⟨totalRows + 1, i + 1, rest⟩ h' c') :
      RowRun limits h old new ⟨totalRows, i, l :: rest⟩ h' c'

theorem rowLoop_run {limits : ParseLimits} {h h' : Hunk} {old new totalRows i : Nat}
    {rest : List Bytes} {c : Cursor}
    (hr : rowLoop limits h old new totalRows i rest = .ok (h', c)) :
    RowRun limits h old new ⟨totalRows, i, rest⟩ h' c := by
  induction rest generalizing h old new totalRows i with
  | nil =>
    rw [rowLoop] at hr
    split at hr
    · cases hr
    · cases hr; exact .done ‹_›
  | cons l rest ih =>
    rw [rowLoop] at hr
    split at hr
    · rename_i hd
      split at hr
      · rename_i hl
        split at hr
        · cases hr
        · rename_i hm
          subst hl
          exact .marker hd hm (ih hr)
      · rename_i hl
        split at hr
        · cases hr
        · rename_i hw
          exact .row hd hl hw (ih hr)
    · cases hr; exact .done ‹_›

/-- What a row does to the count of one side: it takes the next number, or it is not there. -/
def SideStep (on : Prop) (start count taken : Nat) (number : Option Nat) (taken₁ : Nat) : Prop :=
  (on ∧ taken < count ∧ taken₁ = wrappingAdd taken 1 ∧
    ∃ n, checkedAdd start taken = some n ∧ number = some n) ∨
  (¬ on ∧ number = none ∧ taken₁ = taken)

theorem takeNumber_ok {on : Bool} {start count taken line taken₁ : Nat} {number : Option Nat}
    {msg : String} (h : takeNumber on start count taken line msg = .ok (number, taken₁)) :
    SideStep (on = true) start count taken number taken₁ := by
  unfold takeNumber at h
  split at h
  · rename_i hon
    split at h
    · cases h
    · rename_i hc
      split at h
      · cases h
      · rename_i n hn
        cases h
        exact .inl ⟨hon, Nat.lt_of_not_le hc, rfl, n, hn, rfl⟩
  · rename_i hon
    cases h
    exact .inr ⟨hon, rfl, rfl⟩

/-- What one counted row line says. -/
structure RowOf (h : Hunk) (old new : Nat) (l : Bytes) (row : PatchRow) (old₁ new₁ : Nat) :
    Prop where
  kind : ∃ first text, l = first :: text ∧ rowKind first = some row.kind ∧
    fromUtf8 (splitEnding text).1 = some row.text ∧ row.ending = (splitEnding text).2
  oldSide : SideStep (row.kind ≠ .added) h.oldStart h.oldCount old row.oldLine old₁
  newSide : SideStep (row.kind ≠ .removed) h.newStart h.newCount new row.newLine new₁

theorem utf8_ok {v : Bytes} {line : Nat} {s : String} (h : utf8 v line = .ok s) :
    fromUtf8 v = some s := by
  unfold utf8 at h
  split at h
  · cases h; assumption
  · cases h

theorem hunkRow_ok {limits : ParseLimits} {h : Hunk} {old new totalRows i old₁ new₁ : Nat}
    {l : Bytes} {row : PatchRow}
    (hw : hunkRow limits h old new totalRows i l = .ok (row, old₁, new₁)) :
    RowOf h old new l row old₁ new₁ ∧ totalRows + 1 ≤ limits.maxRows := by
  unfold hunkRow at hw
  cases l with
  | nil => cases hw
  | cons first text =>
    dsimp only at hw
    cases hk : rowKind first with
    | none => rw [hk] at hw; cases hw
    | some kind =>
      rw [hk] at hw
      dsimp only at hw
      obtain ⟨⟨oldLine, oldN⟩, ho, hw⟩ := ok_of_bind hw
      obtain ⟨⟨newLine, newN⟩, hn, hw⟩ := ok_of_bind hw
      dsimp only at hw
      split at hw
      · cases hw
      · rename_i hlim
        obtain ⟨t, ht, hw⟩ := ok_of_bind hw
        cases hw
        refine ⟨⟨⟨first, text, rfl, hk, utf8_ok ht, rfl⟩, ?_, ?_⟩, by omega⟩
        · simpa using takeNumber_ok ho
        · simpa using takeNumber_ok hn

/-! ## One hunk -/

/-- The marker that may follow the last counted row. -/
inductive MarkerRun : Hunk → Cursor → Hunk → Cursor → Prop
  | absent {h : Hunk} {c : Cursor} (hc : c.rest.head? ≠ some eofMarker) : MarkerRun h c h c
  | present {h h' : Hunk} {totalRows i : Nat} {rest : List Bytes} (hm : markLast h i = .ok h') :
      MarkerRun h ⟨totalRows, i, eofMarker :: rest⟩ h' ⟨totalRows, i + 1, rest⟩

theorem trailingMarker_run {h h' : Hunk} {c c' : Cursor}
    (hm : trailingMarker h c = .ok (h', c')) : MarkerRun h c h' c' := by
  obtain ⟨totalRows, i, rest⟩ := c
  unfold trailingMarker at hm
  cases rest with
  | nil => cases hm; exact .absent (by simp)
  | cons l rest =>
    dsimp only at hm
    split at hm
    · rename_i hl
      subst hl
      split at hm
      · cases hm
      · cases hm; exact .present ‹_›
    · rename_i hl
      cases hm
      exact .absent (by simpa using hl)

/-- A hunk read from its header line `l`, after the hunks `hunks` of its file. -/
structure HunkRun (limits : ParseLimits) (hunks : List Hunk) (totalRows i : Nat) (l : Bytes)
    (rest : List Bytes) (h : Hunk) (c : Cursor) : Prop where
  run : ∃ h₀ h₁ c₁, hunkHeader l i = .ok h₀ ∧
    (∀ prev, hunks.getLast? = some prev → overlaps prev h₀ = false) ∧
    RowRun limits h₀ 0 0 ⟨totalRows, i + 1, rest⟩ h₁ c₁ ∧ MarkerRun h₁ c₁ h c

theorem hunk_run {limits : ParseLimits} {hunks : List Hunk} {totalRows i : Nat} {l : Bytes}
    {rest : List Bytes} {h : Hunk} {c : Cursor}
    (hh : hunk limits hunks totalRows i l rest = .ok (h, c)) :
    HunkRun limits hunks totalRows i l rest h c := by
  unfold hunk at hh
  obtain ⟨h₀, hd, hh⟩ := ok_of_bind hh
  split at hh
  · cases hh
  · rename_i hov
    obtain ⟨⟨h₁, c₁⟩, hr, hh⟩ := ok_of_bind hh
    refine ⟨h₀, h₁, c₁, hd, fun prev hp => ?_, rowLoop_run hr, trailingMarker_run hh⟩
    rw [hp] at hov
    simpa using hov

/-! ## One file -/

def pushHunk (f : FileChange) (h : Hunk) : FileChange := { f with hunks := f.hunks ++ [h] }

/-- A section ends where the lines do or where the next file begins. -/
def AtEnd (lines : List Bytes) : Prop :=
  lines = [] ∨ ∃ l rest, lines = l :: rest ∧ diffGit.isPrefixOf l = true

inductive SectionRun (limits : ParseLimits) : FileChange → Cursor → FileChange → Cursor → Prop
  | stop {f : FileChange} {c : Cursor} (hs : AtEnd c.rest) : SectionRun limits f c f c
  | hunk {f f' : FileChange} {totalRows i : Nat} {l : Bytes} {rest : List Bytes} {h : Hunk}
      {c c' : Cursor} (hl : diffGit.isPrefixOf l = false) (hl' : hunkStart.isPrefixOf l = true)
      (hh : HunkRun limits f.hunks totalRows i l rest h c)
      (hr : SectionRun limits (pushHunk f h) c f' c') :
      SectionRun limits f ⟨totalRows, i, l :: rest⟩ f' c'
  | blank {f f' : FileChange} {totalRows i : Nat} {rest : List Bytes} {c' : Cursor}
      (hf : f.hunks ≠ []) (hr : SectionRun limits f ⟨totalRows, i + 1, rest⟩ f' c') :
      SectionRun limits f ⟨totalRows, i, [] :: rest⟩ f' c'
  /-- The trailer of a mailed patch: nothing after it is read. -/
  | trailer {f : FileChange} {totalRows i j : Nat} {rest : List Bytes} (hf : f.hunks ≠ []) :
      SectionRun limits f ⟨totalRows, i, mailTrailer :: rest⟩ f ⟨totalRows, j, []⟩
  | header {f f₁ f' : FileChange} {totalRows i : Nat} {l : Bytes} {rest : List Bytes}
      {c' : Cursor} (hl : diffGit.isPrefixOf l = false) (hl' : hunkStart.isPrefixOf l = false)
      (hf : f.hunks = []) (ha : applyHeader f i l = .ok f₁)
      (hr : SectionRun limits f₁ ⟨totalRows, i + 1, rest⟩ f' c') :
      SectionRun limits f ⟨totalRows, i, l :: rest⟩ f' c'

theorem sectionLoop_run {limits : ParseLimits} {f f' : FileChange} {totalRows i : Nat}
    {lines : List Bytes} {c : Cursor}
    (hs : sectionLoop limits f totalRows i lines = .ok (f', c)) :
    SectionRun limits f ⟨totalRows, i, lines⟩ f' c := by
  fun_induction sectionLoop limits f totalRows i lines with
  | case1 => cases hs; exact .stop (.inl rfl)
  | case2 f totalRows i l rest hl => cases hs; exact .stop (.inr ⟨l, rest, rfl, hl⟩)
  | case3 => cases hs
  | case4 f totalRows i l rest hl hl' h c hh ih =>
    exact .hunk (Bool.eq_false_iff.mpr hl) hl' (hunk_run hh) (ih hs)
  | case5 f totalRows i rest hf _ _ ih => exact .blank hf (ih hs)
  | case6 f totalRows i rest hf => cases hs; exact .trailer hf
  | case7 => cases hs
  | case8 => cases hs
  | case9 f totalRows i l rest hl hl' hf f₁ ha ih =>
    exact .header (Bool.eq_false_iff.mpr hl) (Bool.eq_false_iff.mpr hl')
      (not_not.mp hf) ha (ih hs)

theorem SectionRun.atEnd {limits : ParseLimits} {f f' : FileChange} {c c' : Cursor}
    (h : SectionRun limits f c f' c') : AtEnd c'.rest := by
  induction h with
  | stop hs => exact hs
  | hunk _ _ _ _ ih => exact ih
  | blank _ _ ih => exact ih
  | trailer _ => exact .inl rfl
  | header _ _ _ _ _ ih => exact ih

/-- One file, from its `diff --git` line on. -/
structure FileRun (sha256 : Bytes → Bytes) (limits : ParseLimits) (totalRows i : Nat) (l : Bytes)
    (rest : List Bytes) (f : FileChange) (c : Cursor) : Prop where
  run : ∃ old new f₁, headerPaths (l.drop 11) i = .ok (old, new) ∧
    SectionRun limits (newFile old new) ⟨totalRows, i + 1, rest⟩ f₁ c ∧
    finishFile sha256 f₁ c.i = .ok f

theorem fileSection_run {sha256 : Bytes → Bytes} {limits : ParseLimits} {totalRows i : Nat}
    {l : Bytes} {rest : List Bytes} {f : FileChange} {c : Cursor}
    (hf : fileSection sha256 limits totalRows i l rest = .ok (f, c)) :
    FileRun sha256 limits totalRows i l rest f c := by
  unfold fileSection at hf
  split at hf
  · cases hf
  · rename_i old new hp
    split at hf
    · cases hf
    · rename_i f₁ c₁ hs
      split at hf
      · cases hf
      · rename_i hfin
        cases hf
        exact ⟨old, new, f₁, hp, sectionLoop_run hs, hfin⟩

/-! ## The whole patch -/

/-- The loop over the files: preamble lines are skipped, then section follows section. -/
inductive FilesRun (sha256 : Bytes → Bytes) (limits : ParseLimits) :
    List FileChange → Nat → Nat → List Bytes → List FileChange → Prop
  | nil {files : List FileChange} {totalRows i : Nat} :
      FilesRun sha256 limits files totalRows i [] files
  | preamble {totalRows i : Nat} {l : Bytes} {rest : List Bytes} {out : List FileChange}
      (hl : diffGit.isPrefixOf l = false)
      (hr : FilesRun sha256 limits [] totalRows (i + 1) rest out) :
      FilesRun sha256 limits [] totalRows i (l :: rest) out
  | between {files : List FileChange} {totalRows i : Nat} {l : Bytes} {rest : List Bytes}
      {out : List FileChange} (hf : files ≠ []) (hl : diffGit.isPrefixOf l = false)
      (hr : FilesRun sha256 limits files totalRows (i + 1) rest out) :
      FilesRun sha256 limits files totalRows i (l :: rest) out
  | file {files : List FileChange} {totalRows i : Nat} {l : Bytes} {rest : List Bytes}
      {f : FileChange} {c : Cursor} {out : List FileChange}
      (hl : diffGit.isPrefixOf l = true) (hn : files.length < limits.maxFiles)
      (hs : fileSection sha256 limits totalRows i l rest = .ok (f, c))
      (hnew : f.id ∉ seen files)
      (hr : FilesRun sha256 limits (files ++ [f]) c.totalRows c.i c.rest out) :
      FilesRun sha256 limits files totalRows i (l :: rest) out

theorem fileLoop_run {sha256 : Bytes → Bytes} {limits : ParseLimits} {files out : List FileChange}
    {totalRows i : Nat} {lines : List Bytes}
    (hl : fileLoop sha256 limits files totalRows i lines = .ok out) :
    FilesRun sha256 limits files totalRows i lines out := by
  fun_induction fileLoop sha256 limits files totalRows i lines with
  | case1 => cases hl; exact .nil
  | case2 totalRows i l rest hd ih => exact .preamble (Bool.eq_false_iff.mpr hd) (ih hl)
  | case3 files totalRows i l rest hd hf _ ih =>
    exact .between hf (Bool.eq_false_iff.mpr hd) (ih hl)
  | case4 => cases hl
  | case5 => cases hl
  | case6 => cases hl
  | case7 => cases hl
  | case8 files totalRows i l rest hd hn f c hs hnew ih =>
    exact .file (not_not.mp hd) (Nat.lt_of_not_le hn) hs hnew (ih hl)

theorem parsePatch_run {sha256 : Bytes → Bytes} {bytes : Bytes} {limits : ParseLimits}
    {report : PatchReport} (h : parsePatch sha256 bytes limits = .ok report) :
    FilesRun sha256 limits [] 0 0 (splitLines bytes) report.files := by
  unfold parsePatch at h
  split at h
  · cases h
  · split at h
    · cases h
    · split at h
      · cases h
      · rename_i hl
        split at h
        · cases h
        · cases h; exact fileLoop_run hl

end Patch
end Proof
end Diffz
