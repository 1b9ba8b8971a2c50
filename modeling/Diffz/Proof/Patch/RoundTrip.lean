import Mathlib.Data.List.Nodup
import Diffz.Lib.Sha256
import Diffz.Proof.Digest
import Diffz.Proof.Patch.Render

/-!
# Parsing undoes rendering

The outer half of the round trip: the hunk header, the hunks of one file, the files of a patch and
the lines of the whole. Every rendered line begins with bytes the parser dispatches on, so the
texts of the rows, whatever they look like, are never taken for something else.
-/

set_option autoImplicit false

namespace Diffz
namespace Proof
namespace Patch

/-! ## Hunk headers -/

theorem toDigits_not_mem {n : Nat} {c : Char} (hc : c.isDigit = false) :
    c ∉ Nat.toDigits 10 n := by
  intro h
  have hd := List.all_eq_true.mp (digits_all_isDigit n) c h
  rw [hc] at hd
  cases hd

theorem IsRange.not_mem {start count : Nat} {text : List Char} (h : IsRange start count text)
    {c : Char} (hc : c.isDigit = false) (hcomma : c ≠ ',') : c ∉ text := by
  rcases h with rfl | ⟨-, rfl⟩
  · rw [List.mem_append, List.mem_cons, not_or, not_or]
    exact ⟨toDigits_not_mem hc, hcomma, toDigits_not_mem hc⟩
  · exact toDigits_not_mem hc

theorem IsRange.pair {start count line : Nat} {text : List Char} (h : IsRange start count text)
    (hf : start + count ≤ u32Max) (hpos : 0 < count → 0 < start) :
    pair text line = .ok (start, count) := by
  have hstart : parseU32 (Nat.toDigits 10 start) = some start := parseU32_toDigits (by omega)
  have hcount : parseU32 (Nat.toDigits 10 count) = some count := parseU32_toDigits (by omega)
  have hcomma : ',' ∉ Nat.toDigits 10 start := toDigits_not_mem (by decide)
  have hrange : ¬ (0 < count ∧ (start = 0 ∨ checkedAdd start count = none)) := by
    rintro ⟨hc, hz | hn⟩
    · have := hpos hc
      omega
    · rw [checkedAdd_eq_some hf] at hn
      cases hn
  unfold Diffz.pair
  rcases h with rfl | ⟨rfl, rfl⟩
  · rw [splitOnce_singleton hcomma]
    simp only [Option.getD_some, hstart, hcount, if_neg hrange]
  · have h1 : parseU32 ['1'] = some 1 := by decide
    rw [splitOnce_eq_none hcomma]
    simp only [Option.getD_none, hstart, h1, if_neg hrange]

/-- A header line is read as the hunk without its rows. -/
theorem IsHeader.hunkHeader {h : Hunk} {line : Bytes} (hl : IsHeader h line) {i : Nat} (hf : Fits h)
    (hpos : ∀ side, 0 < h.count side → 0 < h.start side) :
    hunkHeader line i = .ok { h with rows := [] } := by
  obtain ⟨old, new, suffix, ho, hn, -, ht, rfl⟩ := hl
  have hfo : h.oldStart + h.oldCount ≤ u32Max := hf .left
  have hfn : h.newStart + h.newCount ≤ u32Max := hf .right
  have hold : splitOnce " +".toList (old ++ (" +".toList ++ (new ++ (" @@".toList ++ suffix)))) =
      some (old, new ++ (" @@".toList ++ suffix)) :=
    splitOnce_of_head_not_mem (ho.not_mem (by decide) (by decide))
  have hnew : splitOnce " @@".toList (new ++ (" @@".toList ++ suffix)) = some (new, suffix) :=
    splitOnce_of_head_not_mem (hn.not_mem (by decide) (by decide))
  unfold Diffz.hunkHeader
  simp only [utf8, fromUtf8_asBytes, bind, Except.bind, String.toList_ofList]
  rw [stripPrefix_append]
  simp only [hold, hnew, ho.pair hfo (hpos .left), hn.pair hfn (hpos .right), ht]
  rfl

/-! ## One hunk -/

theorem HunkInv.rowsAhead {h : Hunk} (hi : HunkInv h) : RowsAhead h 0 0 h.rows :=
  ⟨⟨Nat.zero_le _, hi.numbers .left⟩, ⟨Nat.zero_le _, hi.numbers .right⟩⟩

theorem overlaps_of_before {g h : Hunk} (hg : Fits g) (hb : Before g h) : overlaps g h = false := by
  have hgo : g.oldStart + g.oldCount ≤ u32Max := hg .left
  have hgn : g.newStart + g.newCount ≤ u32Max := hg .right
  have hbo : g.oldStart + g.oldCount ≤ h.oldStart := hb .left
  have hbn : g.newStart + g.newCount ≤ h.newStart := hb .right
  unfold overlaps
  rw [saturatingAdd_eq hgo, saturatingAdd_eq hgn]
  simp [Nat.not_lt.mpr hbo, Nat.not_lt.mpr hbn]

theorem HunkText.Fine.hunk {limits : ParseLimits} {hunks : List Hunk} {t : HunkText} (ht : t.Fine)
    {totalRows i : Nat} {rest : List Bytes} (hi : HunksInv (hunks ++ [t.hunk]))
    (hlim : totalRows + t.hunk.rows.length ≤ limits.maxRows)
    (hrest : rest.head? ≠ some eofMarker) :
    Diffz.hunk limits hunks totalRows i t.line (t.hunk.rows.flatMap rowLines ++ rest) =
      .ok (t.hunk, ⟨totalRows + t.hunk.rows.length,
        i + 1 + (t.hunk.rows.flatMap rowLines).length, rest⟩) := by
  have hmem : t.hunk ∈ hunks ++ [t.hunk] := by simp
  have hread := readRows_render (hi.fits _ hmem) hrest [] (i := i + 1) ht.rows
    (hi.inv _ hmem).shape (hi.inv _ hmem).rowsAhead hlim
  have hover : (hunks.getLast?.any fun prev => overlaps prev { t.hunk with rows := [] }) = false := by
    rw [Option.any_eq_false]
    intro prev hprev
    have hin : prev ∈ hunks := List.mem_of_getLast? hprev
    have hb := (List.pairwise_append.mp hi.ordered).2.2 prev hin t.hunk (by simp)
    have hb' : Before prev { t.hunk with rows := [] } := fun side => by
      have := hb side
      cases side <;> exact this
    exact overlaps_of_before (hi.fits prev (by simp [hin])) hb'
  unfold Diffz.hunk
  simp only [ht.header.hunkHeader (hi.fits _ hmem) (hi.pos _ hmem), bind, Except.bind, hover]
  exact hread

/-! ## One file -/

theorem IsHeader.begins {h : Hunk} {line : Bytes} (hl : IsHeader h line) :
    ∃ tail, line = asBytes "@@ -" ++ tail := by
  obtain ⟨old, new, suffix, -, -, -, -, rfl⟩ := hl
  refine ⟨asBytes (String.ofList (old ++ (" +".toList ++ (new ++ (" @@".toList ++ suffix))))), ?_⟩
  rw [← asBytes_append]
  congr 1
  rw [← String.toList_inj]
  simp

/-- The lines after a hunk: the next hunk or the end of the section. -/
theorem head?_hunkTexts_append {ts : List HunkText} (ht : ∀ t ∈ ts, t.Fine) {rest : List Bytes}
    (hrest : rest.head? ≠ some eofMarker) :
    (ts.flatMap HunkText.lines ++ rest).head? ≠ some eofMarker := by
  cases ts with
  | nil => exact hrest
  | cons t ts =>
    obtain ⟨tail, hl⟩ := (ht t List.mem_cons_self).header.begins
    simp only [List.flatMap_cons, HunkText.lines, List.cons_append, List.head?_cons, hl]
    intro he
    have hhead : (some 64 : Option UInt8) = some 92 := congrArg List.head? (Option.some.inj he)
    exact absurd hhead (by decide)

theorem AtEnd.head?_ne {lines : List Bytes} (h : AtEnd lines) : lines.head? ≠ some eofMarker := by
  rcases h with rfl | ⟨l, rest, rfl, hl⟩
  · simp
  · intro he
    rw [List.head?_cons, Option.some.injEq] at he
    subst he
    exact absurd hl (by decide)

theorem sectionLoop_atEnd {limits : ParseLimits} {f : FileChange} {totalRows i : Nat}
    {lines : List Bytes} (h : AtEnd lines) :
    sectionLoop limits f totalRows i lines = .ok (f, ⟨totalRows, i, lines⟩) := by
  rcases h with rfl | ⟨l, rest, rfl, hl⟩
  · rw [sectionLoop]
  · rw [sectionLoop, if_pos hl]

/-- The hunks of a file, read after those already there. -/
theorem sectionLoop_hunkTexts {limits : ParseLimits} {ts : List HunkText} {f : FileChange}
    {totalRows i : Nat} {rest : List Bytes} (hi : HunksInv (f.hunks ++ ts.map (·.hunk)))
    (ht : ∀ t ∈ ts, t.Fine)
    (hlim : totalRows + (ts.flatMap (·.hunk.rows)).length ≤ limits.maxRows) (hrest : AtEnd rest) :
    sectionLoop limits f totalRows i (ts.flatMap HunkText.lines ++ rest) =
      .ok ({ f with hunks := f.hunks ++ ts.map (·.hunk) },
        ⟨totalRows + (ts.flatMap (·.hunk.rows)).length, i + (ts.flatMap HunkText.lines).length,
          rest⟩) := by
  induction ts generalizing f totalRows i with
  | nil => simpa using sectionLoop_atEnd hrest
  | cons t ts ih =>
    have hi' : HunksInv ((f.hunks ++ [t.hunk]) ++ ts.map (·.hunk)) := by simpa using hi
    have hfirst : HunksInv (f.hunks ++ [t.hunk]) :=
      ⟨fun g hg => hi'.inv g (List.mem_append_left _ hg),
        fun g hg => hi'.fits g (List.mem_append_left _ hg),
        fun g hg => hi'.pos g (List.mem_append_left _ hg), (List.pairwise_append.mp hi'.ordered).1⟩
    have htail : ∀ u ∈ ts, u.Fine := fun u hu => ht u (List.mem_cons_of_mem t hu)
    have hfine := ht t List.mem_cons_self
    simp only [List.flatMap_cons, List.length_append] at hlim
    have hlim' : totalRows + t.hunk.rows.length ≤ limits.maxRows := by omega
    have hh := hfine.hunk (i := i) hfirst hlim' (head?_hunkTexts_append htail hrest.head?_ne)
    have ih' := @ih { f with hunks := f.hunks ++ [t.hunk] } (totalRows + t.hunk.rows.length)
      (i + 1 + (t.hunk.rows.flatMap rowLines).length) hi' htail (by omega)
    obtain ⟨tail, hl⟩ := hfine.header.begins
    have hd : diffGit.isPrefixOf t.line = false := by
      rw [hl]
      rfl
    have hs : hunkStart.isPrefixOf t.line = true := by
      rw [hl]
      rfl
    rw [List.flatMap_cons, HunkText.lines, List.cons_append, List.cons_append, List.append_assoc,
      sectionLoop, if_neg (Bool.eq_false_iff.mp hd), if_pos hs]
    split
    · rename_i he
      rw [hh] at he
      cases he
    · rename_i h₁ c₁ he
      rw [hh] at he
      cases he
      rw [ih']
      simp only [List.map_cons, List.append_assoc, List.singleton_append, List.length_append,
        List.length_cons, List.flatMap_cons, Except.ok.injEq, Prod.mk.injEq, Cursor.mk.injEq,
        true_and, and_true]
      omega

theorem sectionLoop_hunks {limits : ParseLimits} {hunks : List Hunk} {f : FileChange}
    {totalRows i : Nat} {rest : List Bytes} (hi : HunksInv (f.hunks ++ hunks))
    (hp : ∀ h ∈ hunks, PlainHunk h)
    (hlim : totalRows + (hunks.flatMap (·.rows)).length ≤ limits.maxRows) (hrest : AtEnd rest) :
    sectionLoop limits f totalRows i (hunks.flatMap hunkLines ++ rest) =
      .ok ({ f with hunks := f.hunks ++ hunks },
        ⟨totalRows + (hunks.flatMap (·.rows)).length, i + (hunks.flatMap hunkLines).length,
          rest⟩) := by
  have hsame : (hunks.map asWritten).map (·.hunk) = hunks := by
    rw [List.map_map]
    exact List.map_id hunks
  have hrows : (hunks.map asWritten).flatMap (·.hunk.rows) = hunks.flatMap (·.rows) := List.flatMap_map ..
  have hlines : (hunks.map asWritten).flatMap HunkText.lines = hunks.flatMap hunkLines :=
    List.flatMap_map ..
  have hfine : ∀ t ∈ hunks.map asWritten, t.Fine := by
    intro t ht
    obtain ⟨h, hh, rfl⟩ := List.mem_map.mp ht
    exact (hp h hh).fine
  have hinv : HunksInv (f.hunks ++ (hunks.map asWritten).map (·.hunk)) := by rwa [hsame]
  have hread := sectionLoop_hunkTexts (i := i) hinv hfine (by rwa [hrows]) hrest
  rwa [hsame, hrows, hlines] at hread

/-! ## Header lines -/

/-- The segments of a path, each of which `RepoPath::new` looks at. -/
def SegmentsValid (p : Bytes) : Prop :=
  ∀ s ∈ p.splitOn 47, s ≠ [] ∧ s ≠ asBytes "." ∧ s ≠ asBytes ".."

theorem segmentsValid_append {p q : Bytes} :
    SegmentsValid (p ++ 47 :: q) ↔ SegmentsValid p ∧ SegmentsValid q := by
  unfold SegmentsValid
  rw [List.splitOn_append_cons_self]
  exact List.forall_mem_append

theorem segmentsValid_of_not_mem {s : Bytes} (h : 47 ∉ s) :
    SegmentsValid s ↔ s ≠ [] ∧ s ≠ asBytes "." ∧ s ≠ asBytes ".." := by
  unfold SegmentsValid
  rw [List.splitOn_eq_singleton h]
  exact List.forall_mem_singleton

/-- An empty path and an absolute one have an empty segment. -/
theorem validPath_iff {p : Bytes} : validPath p = true ↔ 0 ∉ p ∧ SegmentsValid p := by
  have hseg : (p.splitOn 47).any (fun s => s.isEmpty || s = asBytes "." || s = asBytes "..") =
      false ↔ SegmentsValid p := by
    simp [SegmentsValid, and_assoc]
  have hfirst : SegmentsValid p → p.isEmpty = false ∧ (asBytes "/").isPrefixOf p = false := by
    intro h
    match p, h with
    | [], h => exact absurd rfl (h [] (by simp)).1
    | x :: p, h =>
      refine ⟨rfl, ?_⟩
      by_contra hx
      have hx47 : 47 = x := by
        rw [show asBytes "/" = [47] by decide] at hx
        simpa using hx
      subst hx47
      have hnil : SegmentsValid [] := (segmentsValid_append (p := []).mp h).1
      exact absurd rfl (hnil [] (by simp)).1
  unfold validPath
  simp only [Bool.not_eq_true', Bool.or_eq_false_iff, hseg]
  constructor
  · rintro ⟨⟨⟨-, hz⟩, -⟩, h⟩
    exact ⟨by simpa using hz, h⟩
  · rintro ⟨hz, h⟩
    exact ⟨⟨⟨(hfirst h).1, by simpa using hz⟩, (hfirst h).2⟩, h⟩

/-- The part of a path below `a/` or `b/`. -/
theorem validPath_side_iff {c : UInt8} {p : Bytes} (hc : c = 97 ∨ c = 98) :
    validPath (c :: 47 :: p) = true ↔ validPath p = true := by
  have hside : SegmentsValid [c] := by
    refine (segmentsValid_of_not_mem ?_).mpr ?_
    · rcases hc with rfl | rfl <;> decide
    · rcases hc with rfl | rfl <;> decide
  have hzero : 0 ≠ c := by rcases hc with rfl | rfl <;> decide
  rw [validPath_iff, validPath_iff, ← List.singleton_append, segmentsValid_append]
  simp [hside, hzero]

theorem validPath_side {c : UInt8} {p : Bytes} (hc : c = 97 ∨ c = 98) (h : validPath p = true) :
    validPath (c :: 47 :: p) = true := (validPath_side_iff hc).mpr h

theorem new_of_valid {p : RepoPath} : RepoPath.new p.bytes = .ok p := by
  rw [RepoPath.new, dif_pos p.valid]

theorem path_side {c : UInt8} {p : RepoPath} {i : Nat} (hc : c = 97 ∨ c = 98) :
    path (c :: 47 :: p.bytes) i true = .ok p := by
  have hv := validPath_side hc p.valid
  have hq : (c :: 47 :: p.bytes).head? ≠ some 34 := by rcases hc with rfl | rfl <;> simp
  have htoken : RepoPath.fromGitToken (c :: 47 :: p.bytes) = .ok ⟨c :: 47 :: p.bytes, hv⟩ := by
    rw [RepoPath.fromGitToken, if_pos hq, RepoPath.new, dif_pos hv]
  have hside : RepoPath.withoutSide ⟨c :: 47 :: p.bytes, hv⟩ = .ok p := by
    rw [RepoPath.withoutSide, if_pos]
    · exact new_of_valid
    · rcases hc with rfl | rfl
      · exact .inl rfl
      · exact .inr rfl
  simp only [path, htoken, hside, if_true]

theorem occurrences_append {p a b : Bytes} (hp : p ≠ []) (i : Nat) :
    i + a.length ∈ occurrences p i (a ++ (p ++ b)) := by
  induction a generalizing i with
  | nil =>
    cases p with
    | nil => exact absurd rfl hp
    | cons x p => simp [occurrences]
  | cons x a ih =>
    rw [List.cons_append, occurrences, List.mem_append]
    refine .inr ?_
    have hlen : i + (x :: a).length = i + 1 + a.length := by
      rw [List.length_cons]
      omega
    rw [hlen]
    exact ih (i + 1)

/-- The header names both paths or leaves them to the marker lines. -/
theorem headerPaths_render (p : RepoPath) (i : Nat) :
    headerPaths (asBytes "a/" ++ p.bytes ++ asBytes " b/" ++ p.bytes) i = .ok (some p, some p) ∨
      headerPaths (asBytes "a/" ++ p.bytes ++ asBytes " b/" ++ p.bytes) i = .ok (none, none) := by
  have hv : asBytes "a/" ++ p.bytes ++ asBytes " b/" ++ p.bytes =
      (97 :: 47 :: p.bytes) ++ (asBytes " b/" ++ p.bytes) := by
    rw [show asBytes "a/" = [97, 47] by decide]
    simp
  have hocc := occurrences_append (p := asBytes " b/") (a := 97 :: 47 :: p.bytes) (b := p.bytes)
    (by decide) 0
  rw [hv]
  have hq : ((97 :: 47 :: p.bytes) ++ (asBytes " b/" ++ p.bytes)).head? ≠ some 34 := by simp
  unfold headerPaths
  rw [if_neg hq]
  split
  · rename_i j hj
    left
    rw [hj, List.mem_singleton, Nat.zero_add] at hocc
    have hdrop : ((97 :: 47 :: p.bytes) ++ (asBytes " b/" ++ p.bytes)).drop
        ((97 :: 47 :: p.bytes).length + 1) = 98 :: 47 :: p.bytes := by
      rw [← List.drop_drop, List.drop_left, show asBytes " b/" = [32, 98, 47] by decide]
      rfl
    rw [← hocc, List.take_left, hdrop]
    simp only [path_side (.inl rfl), path_side (.inr rfl), bind, Except.bind, pure, Except.pure]
  · exact .inr rfl

theorem markerPath_render {c : UInt8} {p : RepoPath} {i : Nat} (hc : c = 97 ∨ c = 98)
    (htab : 9 ∉ p.bytes) : markerPath (c :: 47 :: p.bytes) i = .ok (some p) := by
  have hmem : (9 : UInt8) ∉ c :: 47 :: p.bytes := by
    rcases hc with rfl | rfl <;> simp [htab]
  have hnull : c :: 47 :: p.bytes ≠ devNull := by
    intro h
    have hhead : some c = some 47 := congrArg List.head? h
    rcases hc with rfl | rfl <;> exact absurd hhead (by decide)
  unfold markerPath
  rw [List.splitOn_eq_singleton hmem]
  simp only [List.headD_cons, if_neg hnull, path_side hc]

theorem applyHeader_oldFile {f : FileChange} {p : RepoPath} {i : Nat} (htab : 9 ∉ p.bytes) :
    applyHeader f i (asBytes "--- " ++ (asBytes "a/" ++ p.bytes)) =
      .ok { f with oldPath := some p } := by
  have hl : headerLine (asBytes "--- " ++ (asBytes "a/" ++ p.bytes)) =
      .oldFile (97 :: 47 :: p.bytes) := by
    rw [headerLine, stripPrefix_append]
    rfl
  simp only [applyHeader, hl, markerPath_render (.inl rfl) htab, bind, Except.bind, pure,
    Except.pure]

theorem applyHeader_newFile {f : FileChange} {p : RepoPath} {i : Nat} (htab : 9 ∉ p.bytes) :
    applyHeader f i (asBytes "+++ " ++ (asBytes "b/" ++ p.bytes)) =
      .ok { f with newPath := some p } := by
  have hl : headerLine (asBytes "+++ " ++ (asBytes "b/" ++ p.bytes)) =
      .newFile (98 :: 47 :: p.bytes) := by
    have hno : stripPrefix (asBytes "--- ") (asBytes "+++ " ++ (asBytes "b/" ++ p.bytes)) = none :=
      rfl
    rw [headerLine, hno, stripPrefix_append]
    rfl
  simp only [applyHeader, hl, markerPath_render (.inr rfl) htab, bind, Except.bind, pure,
    Except.pure]

theorem sectionLoop_header {limits : ParseLimits} {f f' : FileChange} {totalRows i : Nat}
    {l : Bytes} {rest : List Bytes} (hd : diffGit.isPrefixOf l = false)
    (hs : hunkStart.isPrefixOf l = false) (hf : f.hunks = []) (ha : applyHeader f i l = .ok f') :
    sectionLoop limits f totalRows i (l :: rest) =
      sectionLoop limits f' totalRows (i + 1) rest := by
  rw [sectionLoop, if_neg (Bool.eq_false_iff.mp hd), if_neg (Bool.eq_false_iff.mp hs),
    if_neg (not_not.mpr hf), ha]

/-! ## The file -/

/-- What the parser makes of a rendered file. -/
def parsed (sha256 : Bytes → Bytes) (f : Rendered) : FileChange :=
  { newFile (some f.path) (some f.path) with
    id := ⟨digest sha256 [asBytes "file-v1", f.path.bytes, f.path.bytes]⟩, hunks := f.hunks }

/-- What a rendered file must be: a path Git would not quote for a tab or a line feed, and hunks
with the representation invariant. -/
structure Plain (f : Rendered) : Prop where
  tab : 9 ∉ f.path.bytes
  lf : 10 ∉ f.path.bytes
  inv : HunksInv f.hunks
  hunks : ∀ h ∈ f.hunks, PlainHunk h

theorem fileSection_render (sha256 : Bytes → Bytes) {limits : ParseLimits} {f : Rendered}
    {totalRows : Nat} (i : Nat) {rest : List Bytes} (hp : Plain f)
    (hlim : totalRows + (f.hunks.flatMap (·.rows)).length ≤ limits.maxRows) (hrest : AtEnd rest) :
    fileSection sha256 limits totalRows i
      (diffGit ++ (asBytes "a/" ++ f.path.bytes ++ asBytes " b/" ++ f.path.bytes))
      ((asBytes "--- " ++ (asBytes "a/" ++ f.path.bytes)) ::
        (asBytes "+++ " ++ (asBytes "b/" ++ f.path.bytes)) ::
        (f.hunks.flatMap hunkLines ++ rest)) =
      .ok (parsed sha256 f, ⟨totalRows + (f.hunks.flatMap (·.rows)).length,
        i + 3 + (f.hunks.flatMap hunkLines).length, rest⟩) := by
  have hdrop : (diffGit ++ (asBytes "a/" ++ f.path.bytes ++ asBytes " b/" ++ f.path.bytes)).drop 11 =
      asBytes "a/" ++ f.path.bytes ++ asBytes " b/" ++ f.path.bytes :=
    List.drop_left' (by decide)
  -- Whatever the header named, the marker lines name again.
  have key : ∀ old new, headerPaths (asBytes "a/" ++ f.path.bytes ++ asBytes " b/" ++
      f.path.bytes) i = .ok (old, new) → fileSection sha256 limits totalRows i
      (diffGit ++ (asBytes "a/" ++ f.path.bytes ++ asBytes " b/" ++ f.path.bytes))
      ((asBytes "--- " ++ (asBytes "a/" ++ f.path.bytes)) ::
        (asBytes "+++ " ++ (asBytes "b/" ++ f.path.bytes)) ::
        (f.hunks.flatMap hunkLines ++ rest)) =
      .ok (parsed sha256 f, ⟨totalRows + (f.hunks.flatMap (·.rows)).length,
        i + 3 + (f.hunks.flatMap hunkLines).length, rest⟩) := by
    intro old new hpaths
    have hhunks := sectionLoop_hunks (i := i + 3)
      (f := { newFile old new with oldPath := some f.path, newPath := some f.path })
      hp.inv hp.hunks hlim hrest
    unfold fileSection
    rw [hdrop, hpaths]
    dsimp only
    rw [sectionLoop_header rfl rfl rfl (applyHeader_oldFile hp.tab),
      sectionLoop_header rfl rfl rfl (applyHeader_newFile hp.tab)]
    simp only [Nat.add_assoc, Nat.reduceAdd] at hhunks ⊢
    rw [hhunks]
    rfl
  rcases headerPaths_render f.path i with h | h
  · exact key _ _ h
  · exact key _ _ h

/-! ## The files -/

theorem atEnd_renderLines (files : List Rendered) : AtEnd (renderLines files) := by
  cases files with
  | nil => exact .inl rfl
  | cons f files => exact .inr ⟨_, _, rfl, by simp⟩

theorem fileLoop_render {sha256 : Bytes → Bytes} {limits : ParseLimits} {files : List Rendered}
    {acc : List FileChange} {totalRows i : Nat} (hp : ∀ f ∈ files, Plain f)
    (hids : (seen (acc ++ files.map (parsed sha256))).Nodup)
    (hfiles : acc.length + files.length ≤ limits.maxFiles)
    (hrows : totalRows + ((files.flatMap (·.hunks)).flatMap (·.rows)).length ≤ limits.maxRows) :
    fileLoop sha256 limits acc totalRows i (renderLines files) =
      .ok (acc ++ files.map (parsed sha256)) := by
  induction files generalizing acc totalRows i with
  | nil => simp [renderLines, fileLoop]
  | cons f files ih =>
    simp only [List.flatMap_cons, List.flatMap_append, List.length_append, List.length_cons]
      at hrows hfiles
    have hids' : (seen ((acc ++ [parsed sha256 f]) ++ files.map (parsed sha256))).Nodup := by
      simpa using hids
    have hnew : (parsed sha256 f).id ∉ seen acc := by
      intro hmem
      unfold seen at hids hmem
      rw [List.map_cons, List.map_append, List.nodup_append] at hids
      exact hids.2.2 _ hmem _ (by simp) rfl
    have hroom : totalRows + (f.hunks.flatMap (·.rows)).length ≤ limits.maxRows := by omega
    have hsec := fileSection_render sha256 i (hp f (by simp)) hroom (atEnd_renderLines files)
    have hlines : renderLines (f :: files) =
        (diffGit ++ (asBytes "a/" ++ f.path.bytes ++ asBytes " b/" ++ f.path.bytes)) ::
          (asBytes "--- " ++ (asBytes "a/" ++ f.path.bytes)) ::
          (asBytes "+++ " ++ (asBytes "b/" ++ f.path.bytes)) ::
          (f.hunks.flatMap hunkLines ++ renderLines files) := by
      simp [renderLines, fileLines]
    rw [hlines, fileLoop, if_neg (by simp), if_neg (by omega)]
    split
    · rename_i he
      rw [hsec] at he
      cases he
    · rename_i g c he
      rw [hsec] at he
      cases he
      rw [if_neg hnew, ih (fun g hg => hp g (by simp [hg])) hids' (by simp; omega) (by dsimp; omega)]
      simp

/-! ## The lines -/

theorem splitOn_flatMap_lf {lines : List Bytes} (h : ∀ l ∈ lines, 10 ∉ l) :
    (lines.flatMap (· ++ [10])).splitOn 10 = lines ++ [[]] := by
  induction lines with
  | nil => rfl
  | cons l lines ih =>
    rw [List.flatMap_cons, List.append_assoc, List.singleton_append,
      List.splitOn_append_cons_self_of_not_mem (h l (by simp)),
      ih fun l' hl' => h l' (by simp [hl'])]
    rfl

theorem splitLines_flatMap_lf {lines : List Bytes} (h : ∀ l ∈ lines, 10 ∉ l) :
    splitLines (lines.flatMap (· ++ [10])) = lines := by
  simp [splitLines, splitOn_flatMap_lf h]

theorem lf_not_mem_asBytes {s : String} (h : '\n' ∉ s.toList) : 10 ∉ asBytes s :=
  fun hm => h (mem_toList_of_ascii_mem (by decide) (by decide) hm)

theorem IsHeader.lf_not_mem {h : Hunk} {line : Bytes} (hl : IsHeader h line) : 10 ∉ line := by
  obtain ⟨old, new, suffix, ho, hn, hs, -, rfl⟩ := hl
  refine lf_not_mem_asBytes ?_
  simp [ho.not_mem (c := '\n') (by decide) (by decide), hn.not_mem (c := '\n') (by decide) (by decide),
    hs]

theorem lf_not_mem_rowLines {r : PatchRow} (hr : PlainRow r) {l : Bytes} (hl : l ∈ rowLines r) :
    10 ∉ l := by
  have htext := lf_not_mem_asBytes hr.text
  have hbegin : (10 : UInt8) ≠ rowPrefix r.kind := by cases r.kind <;> decide
  unfold rowLines at hl
  rw [List.mem_cons] at hl
  rcases hl with rfl | hl
  · unfold rowLine
    rw [List.mem_cons, List.mem_append, not_or, not_or]
    refine ⟨hbegin, htext, ?_⟩
    split <;> simp
  · split at hl
    · rw [List.mem_singleton.mp hl]
      decide
    · cases hl

/-- The first bytes of the lines a patch is rendered as. -/
inductive Opens : Bytes → Prop
  | file (t : Bytes) : Opens (diffGit ++ t)
  | oldMarker (t : Bytes) : Opens (asBytes "--- " ++ t)
  | newMarker (t : Bytes) : Opens (asBytes "+++ " ++ t)
  | hunk (t : Bytes) : Opens (asBytes "@@ -" ++ t)
  | row (k : RowKind) (t : Bytes) : Opens (rowPrefix k :: t)
  | eof : Opens eofMarker

/-- A line of a combined diff. -/
def Combined (l : Bytes) : Prop :=
  (asBytes "diff --cc ").isPrefixOf l = true ∨ (asBytes "diff --combined ").isPrefixOf l = true ∨
    (asBytes "@@@ ").isPrefixOf l = true

/-- None of them begins a combined diff. -/
theorem Opens.not_combined {l : Bytes} (h : Opens l) : ¬Combined l := by
  have hrow : ∀ k t, Opens (rowPrefix k :: t) → (asBytes "diff --cc ").isPrefixOf
      (rowPrefix k :: t) = false ∧ (asBytes "diff --combined ").isPrefixOf (rowPrefix k :: t) =
      false ∧ (asBytes "@@@ ").isPrefixOf (rowPrefix k :: t) = false := by
    intro k t _
    cases k <;> exact ⟨rfl, rfl, rfl⟩
  rintro (hc | hc | hc)
  all_goals cases h with
    | file t => cases hc
    | oldMarker t => cases hc
    | newMarker t => cases hc
    | hunk t => cases hc
    | row k t =>
      have hk := hrow k t (.row k t)
      simp [hk.1, hk.2.1, hk.2.2] at hc
    | eof => cases hc

theorem opens_rowLines {r : PatchRow} {l : Bytes} (hl : l ∈ rowLines r) : Opens l := by
  unfold rowLines at hl
  rw [List.mem_cons] at hl
  rcases hl with rfl | hl
  · exact .row r.kind _
  · split at hl
    · rw [List.mem_singleton.mp hl]
      exact .eof
    · cases hl

theorem IsHeader.opens {h : Hunk} {line : Bytes} (hl : IsHeader h line) : Opens line := by
  obtain ⟨tail, rfl⟩ := hl.begins
  exact .hunk tail

/-- What holds of every line of a plain file. -/
theorem forall_renderLines {P : Bytes → Prop} {files : List Rendered}
    (hfile : ∀ f ∈ files,
      P (diffGit ++ (asBytes "a/" ++ f.path.bytes ++ asBytes " b/" ++ f.path.bytes)) ∧
      P (asBytes "--- " ++ (asBytes "a/" ++ f.path.bytes)) ∧
      P (asBytes "+++ " ++ (asBytes "b/" ++ f.path.bytes)))
    (hhunk : ∀ f ∈ files, ∀ h ∈ f.hunks, P (headerBytes h))
    (hrow : ∀ f ∈ files, ∀ h ∈ f.hunks, ∀ r ∈ h.rows, ∀ l ∈ rowLines r, P l) :
    ∀ l ∈ renderLines files, P l := by
  intro l hl
  obtain ⟨f, hf, hl⟩ := List.mem_flatMap.mp hl
  obtain ⟨h1, h2, h3⟩ := hfile f hf
  simp only [fileLines, List.mem_cons] at hl
  rcases hl with rfl | rfl | rfl | hl
  · exact h1
  · exact h2
  · exact h3
  · obtain ⟨h, hh, hl⟩ := List.mem_flatMap.mp hl
    rw [hunkLines, List.mem_cons] at hl
    rcases hl with rfl | hl
    · exact hhunk f hf h hh
    · obtain ⟨r, hr, hl⟩ := List.mem_flatMap.mp hl
      exact hrow f hf h hh r hr l hl

theorem lf_not_mem_renderLines {files : List Rendered} (hp : ∀ f ∈ files, Plain f) :
    ∀ l ∈ renderLines files, 10 ∉ l := by
  refine forall_renderLines (fun f hf => ?_)
    (fun f hf h hh => ((hp f hf).hunks h hh).isHeader.lf_not_mem)
    (fun f hf h hh r hr l hl => lf_not_mem_rowLines (((hp f hf).hunks h hh).rows r hr) hl)
  have hlf := (hp f hf).lf
  have hconst : 10 ∉ diffGit ∧ 10 ∉ asBytes "a/" ∧ 10 ∉ asBytes "b/" ∧ 10 ∉ asBytes " b/" ∧
      10 ∉ asBytes "--- " ∧ 10 ∉ asBytes "+++ " := by decide
  obtain ⟨h1, h2, h3, h4, h5, h6⟩ := hconst
  refine ⟨?_, ?_, ?_⟩
  all_goals simp only [List.mem_append, not_or]
  · exact ⟨h1, ⟨⟨h2, hlf⟩, h4⟩, hlf⟩
  · exact ⟨h5, h2, hlf⟩
  · exact ⟨h6, h3, hlf⟩

theorem opens_renderLines {files : List Rendered} (hp : ∀ f ∈ files, Plain f) :
    ∀ l ∈ renderLines files, Opens l :=
  forall_renderLines (fun _ _ => ⟨.file _, .oldMarker _, .newMarker _⟩)
    (fun f hf h hh => ((hp f hf).hunks h hh).isHeader.opens)
    (fun _ _ _ _ _ _ _ hl => opens_rowLines hl)

theorem checkLines_ok {limits : ParseLimits} {lines : List Bytes} {i : Nat}
    (hlen : ∀ l ∈ lines, l.length ≤ limits.maxLineBytes) (hsingle : ∀ l ∈ lines, ¬Combined l) :
    checkLines limits i lines = .ok () := by
  induction lines generalizing i with
  | nil => rfl
  | cons l lines ih =>
    have hl : ¬((asBytes "diff --cc ").isPrefixOf l = true ∨
        (asBytes "diff --combined ").isPrefixOf l = true ∨ (asBytes "@@@ ").isPrefixOf l = true) :=
      hsingle l (by simp)
    rw [checkLines, if_neg (Nat.not_lt.mpr (hlen l (by simp))), if_neg hl]
    exact ih (fun l' hl' => hlen l' (by simp [hl'])) fun l' hl' => hsingle l' (by simp [hl'])

/-! ## Identities -/

/-- The bytes hashed for the identity of a rendered file. -/
def fileKey (p : RepoPath) : Bytes := framed [asBytes "file-v1", p.bytes, p.bytes]

theorem toLeBytes_length (n : Nat) : (toLeBytes n).length = 8 := by simp [toLeBytes]

theorem fileKey_injective {p q : RepoPath} (h : fileKey p = fileKey q) : p = q := by
  unfold fileKey framed at h
  simp only [List.flatMap_cons, List.flatMap_nil, List.append_nil, List.append_assoc] at h
  have hlen := congrArg List.length h
  simp only [List.length_append, toLeBytes_length] at hlen
  obtain ⟨_, h⟩ := List.append_inj h rfl
  obtain ⟨_, h⟩ := List.append_inj h rfl
  obtain ⟨_, h⟩ := List.append_inj h (by simp [toLeBytes_length])
  obtain ⟨h, _⟩ := List.append_inj h (by omega)
  obtain ⟨p, hp⟩ := p
  obtain ⟨q, hq⟩ := q
  cases h
  rfl

theorem parsed_ids_nodup {sha256 : Bytes → Bytes} {files : List Rendered}
    (hpaths : (files.map (·.path)).Nodup)
    (hc : CollisionFree sha256 {b | ∃ f ∈ files, b = fileKey f.path}) :
    (seen (files.map (parsed sha256))).Nodup := by
  unfold seen
  rw [List.map_map]
  refine (List.nodup_map_iff_inj_on ?_).mpr ?_
  · exact hpaths.of_map _
  · intro f hf g hg hid
    have hdig : digest sha256 [asBytes "file-v1", f.path.bytes, f.path.bytes] =
        digest sha256 [asBytes "file-v1", g.path.bytes, g.path.bytes] := congrArg FileId.val hid
    have hkey := hc.digest ⟨f, hf, rfl⟩ ⟨g, hg, rfl⟩ hdig
    exact List.inj_on_of_nodup_map hpaths hf hg (fileKey_injective hkey)

/-! ## The bytes of a side -/

/-- `text + ending.bytes()` over the rows of one side. -/
def sideBytes (side : Side) (rows : List PatchRow) : Bytes :=
  (rows.filter fun r => (r.number side).isSome).flatMap fun r => asBytes r.text ++ r.ending.bytes

/-- Whether a line of a hunk is on a side. -/
def onSide : Side → UInt8 → Bool
  | .left, first => first = 32 || first = 45
  | .right, first => first = 32 || first = 43

/-- What the lines of a hunk say a side of the source is: each line without its prefix and with its
line feed, unless the EOF marker follows it. -/
def sourceBytes (side : Side) : List Bytes → Bytes
  | [] => []
  | [] :: rest => sourceBytes side rest
  | (first :: text) :: rest =>
    (if onSide side first then text ++ (if rest.head? = some eofMarker then [] else [10]) else []) ++
      sourceBytes side rest

theorem onSide_rowPrefix (side : Side) (k : RowKind) :
    onSide side (rowPrefix k) = true ↔ k.on side := by
  cases side <;> cases k <;> simp [onSide, rowPrefix, RowKind.on]

theorem sourceBytes_rowLines {side : Side} {rows : List PatchRow}
    (hs : ∀ r ∈ rows, (r.number side).isSome ↔ r.kind.on side) :
    sourceBytes side (rows.flatMap rowLines) = sideBytes side rows := by
  induction rows with
  | nil => rfl
  | cons r rows ih =>
    have ih := ih fun r' hr' => hs r' (by simp [hr'])
    have hnext : (rows.flatMap rowLines).head? ≠ some eofMarker := by
      have hnil : ([] : List Bytes).head? ≠ some eofMarker := by simp
      simpa using head?_rowLines_append rows hnil
    have hon : onSide side (rowPrefix r.kind) = (r.number side).isSome := by
      rw [Bool.eq_iff_iff, onSide_rowPrefix]
      exact (hs r (by simp)).symm
    have hfirst : sideBytes side (r :: rows) = (if (r.number side).isSome then
        asBytes r.text ++ r.ending.bytes else []) ++ sideBytes side rows := by
      unfold sideBytes
      rw [List.filter_cons]
      split <;> simp
    have hmarker : onSide side 92 = false := by cases side <;> rfl
    rw [hfirst, List.flatMap_cons, rowLines, rowLine]
    cases he : r.ending with
    | lf =>
      simp only [reduceCtorEq, if_false, List.append_nil, List.cons_append, List.nil_append,
        sourceBytes, if_neg hnext, hon, ih, LineEnding.bytes]
    | crLf =>
      simp only [reduceCtorEq, if_false, if_true, List.cons_append, List.nil_append,
        sourceBytes, if_neg hnext, hon, ih, LineEnding.bytes, List.append_assoc]
    | none =>
      have htail : sourceBytes side (eofMarker :: rows.flatMap rowLines) = sideBytes side rows := by
        rw [← ih, show eofMarker = 92 :: eofMarker.tail by decide, sourceBytes, hmarker]
        rfl
      simp only [reduceCtorEq, if_false, if_true, List.append_nil, List.cons_append,
        List.nil_append, sourceBytes, List.head?_cons, hon, htail, LineEnding.bytes]

/-! ## The round trip -/

structure FitsLimits (limits : ParseLimits) (files : List Rendered) : Prop where
  bytes : (render files).length ≤ limits.maxBytes
  count : files.length ≤ limits.maxFiles
  rows : ((files.flatMap (·.hunks)).flatMap (·.rows)).length ≤ limits.maxRows
  lines : ∀ l ∈ renderLines files, l.length ≤ limits.maxLineBytes

theorem parsePatch_render {sha256 : Bytes → Bytes} {limits : ParseLimits} {files : List Rendered}
    (hpaths : (files.map (·.path)).Nodup) (hplain : ∀ f ∈ files, Plain f)
    (hfit : FitsLimits limits files)
    (hc : CollisionFree sha256 {b | ∃ f ∈ files, b = fileKey f.path}) :
    parsePatch sha256 (render files) limits = .ok ⟨files.map (parsed sha256)⟩ := by
  have hlines : splitLines (render files) = renderLines files :=
    splitLines_flatMap_lf (lf_not_mem_renderLines hplain)
  have hcheck : checkLines limits 0 (renderLines files) = .ok () :=
    checkLines_ok hfit.lines fun l hl => (opens_renderLines hplain l hl).not_combined
  have hloop : fileLoop sha256 limits [] 0 0 (renderLines files) =
      .ok (files.map (parsed sha256)) := by
    have hloop := @fileLoop_render sha256 limits files [] 0 0 hplain (parsed_ids_nodup hpaths hc)
      (by simpa using hfit.count) (by simpa using hfit.rows)
    exact hloop
  have hempty : ¬ (files.map (parsed sha256) = [] ∧
      ¬ (render files).all isAsciiWhitespace = true) := by
    rintro ⟨hnil, hne⟩
    rw [List.map_eq_nil_iff] at hnil
    subst hnil
    exact hne rfl
  unfold parsePatch
  rw [if_neg (Nat.not_lt.mpr hfit.bytes), hlines, hcheck]
  dsimp only
  rw [hloop]
  dsimp only
  rw [if_neg hempty]

/-- **Parsing undoes rendering.** The report has the files' paths and hunks, and the rows of a hunk
spell out, on each side, the bytes its lines stand for. -/
theorem parsePatch_render_lossless {sha256 : Bytes → Bytes} {limits : ParseLimits}
    {files : List Rendered} (hpaths : (files.map (·.path)).Nodup) (hplain : ∀ f ∈ files, Plain f)
    (hfit : FitsLimits limits files)
    (hc : CollisionFree sha256 {b | ∃ f ∈ files, b = fileKey f.path}) :
    ∃ report, parsePatch sha256 (render files) limits = .ok report ∧
      report.files.map (fun g => (g.oldPath, g.newPath, g.hunks)) =
        files.map (fun f => (some f.path, some f.path, f.hunks)) ∧
      ∀ g ∈ report.files, ∀ h ∈ g.hunks, ∀ side,
        sideBytes side h.rows = sourceBytes side (h.rows.flatMap rowLines) := by
  refine ⟨_, parsePatch_render hpaths hplain hfit hc, ?_, fun g hg h hh side => ?_⟩
  · rw [List.map_map]
    rfl
  · obtain ⟨f, hf, rfl⟩ := List.mem_map.mp hg
    have hi := (hplain f hf).inv.inv h hh
    exact (sourceBytes_rowLines fun r hr => hi.shape r hr side).symm

/-- A file with CRLF rows, rows that look like headers and trailers, a marker inside the hunk and a
bare CR at the end of the new side. -/
def endingsFile : Rendered where
  path := ⟨asBytes "src/a b.rs", by decide⟩
  hunks := [
    { oldStart := 1, oldCount := 3, newStart := 1, newCount := 3, sectionText := "fn main()",
      rows := [
        ⟨some 1, some 1, "diff --git a/x b/x", .crLf, .context⟩,
        ⟨some 2, none, "- ", .lf, .removed⟩,
        ⟨some 3, none, "@@ old", .none, .removed⟩,
        ⟨none, some 2, "\\ No newline at end of file", .lf, .added⟩,
        ⟨none, some 3, "é\r", .none, .added⟩] }]

/-- A second file, with no hunks. -/
def bareFile : Rendered where
  path := ⟨asBytes "b", by decide⟩
  hunks := []

theorem endingsFile_plain : Plain endingsFile := by
  refine ⟨by decide, by decide, ⟨?_, ?_, ?_, ?_⟩, ?_⟩
  · simp only [endingsFile, List.mem_singleton, forall_eq]
    refine ⟨fun side => by cases side <;> rfl, fun r hr side => ?_⟩
    simp only [List.mem_cons, List.not_mem_nil, or_false] at hr
    rcases hr with rfl | rfl | rfl | rfl | rfl <;> cases side <;>
      simp [PatchRow.number, RowKind.on]
  · simp only [endingsFile, List.mem_singleton, forall_eq]
    intro side
    cases side <;> decide
  · simp only [endingsFile, List.mem_singleton, forall_eq]
    intro side
    cases side <;> decide
  · exact List.pairwise_singleton _ _
  · simp only [endingsFile, List.mem_singleton, forall_eq]
    refine ⟨fun r hr => ?_, by decide, by decide⟩
    simp only [List.mem_cons, List.not_mem_nil, or_false] at hr
    have hends : ∀ {s t : String}, s = t ++ "\r" → (asBytes s).getLast? = some 13 := by
      rintro _ t rfl
      rw [asBytes_append, show asBytes "\r" = [13] by decide]
      simp
    rcases hr with rfl | rfl | rfl | rfl | rfl
    all_goals
      refine ⟨by decide, fun he t ht => ?_⟩
      first
        | exact absurd (hends ht) (by decide)
        | cases he

theorem bareFile_plain : Plain bareFile :=
  ⟨by decide, by decide, .nil, by simp [bareFile]⟩

/-- The round trip of the two files. -/
theorem endingsFile_round_trip :
    ∃ report, parsePatch Sha256.sha256 (render [endingsFile, bareFile]) .default = .ok report ∧
      report.files.map (fun g => (g.oldPath, g.newPath, g.hunks)) =
        [endingsFile, bareFile].map (fun f => (some f.path, some f.path, f.hunks)) ∧
      ∀ g ∈ report.files, ∀ h ∈ g.hunks, ∀ side,
        sideBytes side h.rows = sourceBytes side (h.rows.flatMap rowLines) := by
  refine parsePatch_render_lossless (by decide) ?_
    ⟨by decide +kernel, by decide, by decide, by decide +kernel⟩ ?_
  · intro f hf
    simp only [List.mem_cons, List.not_mem_nil, or_false] at hf
    rcases hf with rfl | rfl
    · exact endingsFile_plain
    · exact bareFile_plain
  · have hne : Sha256.sha256 (fileKey endingsFile.path) ≠ Sha256.sha256 (fileKey bareFile.path) := by
      decide +kernel
    rintro a ⟨f, hf, rfl⟩ b ⟨g, hg, rfl⟩ hab
    simp only [List.mem_cons, List.not_mem_nil, or_false] at hf hg
    rcases hf with rfl | rfl <;> rcases hg with rfl | rfl
    · rfl
    · exact absurd hab hne
    · exact absurd hab.symm hne
    · rfl

end Patch
end Proof
end Diffz
