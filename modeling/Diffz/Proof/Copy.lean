import Diffz.Core.Source
import Diffz.Lib.Fallible

/-!
# Copying gives the source

The line loop cuts a text at its line feeds (`Lined`), so a line, its ending and the next line are
slices that follow each other. What is copied from the rows of a patch is put together from such
slices, and is the slice from the first point to the last.
-/

set_option autoImplicit false

namespace Diffz
namespace Proof
namespace Copy

open Diffz.SourceDocument
open Diffz.Snapshot

/-! ## Lines -/

/-- The text of a line ending. -/
def endingText (e : LineEnding) : List Char := ((fromUtf8 e.bytes).getD "").toList

theorem endingText_eq : endingText .lf = ['\n'] ∧ endingText .crLf = ['\r', '\n'] ∧
    endingText .none = [] := by
  refine ⟨by decide +kernel, by decide +kernel, by decide +kernel⟩

/-- A text that begins at the byte `p` has these lines. -/
inductive Lined : Nat → List Char → List SourceLine → Prop
  | nil (p : Nat) : Lined p [] []
  | last {p : Nat} {t : List Char} (hne : t ≠ []) :
      Lined p t [{ content := ⟨p, p + byteLen t⟩, ending := .none }]
  | line {p : Nat} {t rest : List Char} {ls : List SourceLine} (e : LineEnding)
      (hrest : Lined (p + byteLen t + byteLen (endingText e)) rest ls) :
      Lined p (t ++ (endingText e ++ rest)) ({ content := ⟨p, p + byteLen t⟩, ending := e } :: ls)

/-- A text that begins at the byte `p`, cut at its line feeds: no line has one in it, and a carriage
return before one is part of the ending. -/
inductive Cut : Nat → List Char → List SourceLine → Prop
  | nil (p : Nat) : Cut p [] []
  | last {p : Nat} {t : List Char} (hne : t ≠ []) (hlf : '\n' ∉ t) :
      Cut p t [{ content := ⟨p, p + byteLen t⟩, ending := .none }]
  | line {p : Nat} {t rest : List Char} {ls : List SourceLine} (e : LineEnding) (he : e ≠ .none)
      (hlf : '\n' ∉ t) (hcr : e = .lf → ∀ u, t ≠ u ++ ['\r'])
      (hrest : Cut (p + byteLen t + byteLen (endingText e)) rest ls) :
      Cut p (t ++ (endingText e ++ rest)) ({ content := ⟨p, p + byteLen t⟩, ending := e } :: ls)

theorem Cut.lined {p : Nat} {t : List Char} {ls : List SourceLine} (h : Cut p t ls) :
    Lined p t ls := by
  induction h with
  | nil p => exact .nil p
  | last hne _ => exact .last hne
  | line e _ _ _ _ ih => exact .line e ih

section Lines

variable {raw : Bytes} {lines out : List SourceLine} {start i stop : Nat}
  {pre cur rest : List Char}

theorem length_asBytes (s : List Char) : (asBytes (String.ofList s)).length = byteLen s := by
  rw [asBytes_ofList]
  induction s with
  | nil => rfl
  | cons c s ih => simp [ih, String.length_utf8EncodeChar]

theorem length_asBytes_toList (s : String) : (asBytes s).length = byteLen s.toList := by
  rw [← length_asBytes, String.ofList_toList]

/-- Bytes that are no line feed only move the loop on. -/
theorem lineLoop_skip {bs : Bytes} (h : 10 ∉ bs) (rest : Bytes) :
    lineLoop raw start i lines (bs ++ rest) = lineLoop raw start (i + bs.length) lines rest := by
  induction bs generalizing i with
  | nil => rfl
  | cons b bs ih =>
    have hb : b ≠ 10 := fun hb => h (hb ▸ List.mem_cons_self ..)
    rw [List.cons_append, lineLoop, if_neg hb, ih fun hmem => h (List.mem_cons_of_mem b hmem),
      List.length_cons, Nat.add_assoc, Nat.add_comm 1]

theorem not_mem_encode {c : Char} (h : c ≠ '\n') : (10 : UInt8) ∉ String.utf8EncodeChar c := by
  intro hmem
  obtain ⟨-, hval⟩ := utf8EncodeChar_of_ascii_mem (by decide) hmem
  exact h (Char.ext (UInt32.toNat_inj.mp hval))

/-- The byte before a line feed is the carriage return of the line. -/
theorem crBefore_iff (hraw : raw = asBytes (String.ofList (pre ++ cur ++ rest))) :
    (byteLen (pre ++ cur) > byteLen pre ∧ raw[byteLen (pre ++ cur) - 1]? = some 13) ↔
      ∃ t, cur = t ++ ['\r'] := by
  rcases List.eq_nil_or_concat cur with rfl | ⟨u, d, rfl⟩
  · simp
  rw [List.concat_eq_append] at hraw ⊢
  have hbytes : raw = asBytes (String.ofList (pre ++ u)) ++ (String.utf8EncodeChar d ++
      asBytes (String.ofList rest)) := by
    rw [hraw, asBytes_ofList, asBytes_ofList, asBytes_ofList]
    simp
  have hlen : byteLen (pre ++ (u ++ [d])) - 1 =
      (asBytes (String.ofList (pre ++ u))).length + (d.utf8Size - 1) := by
    have := d.utf8Size_pos
    rw [length_asBytes]
    simp only [byteLen_append, byteLen_cons, byteLen_nil]
    omega
  have hlast : raw[byteLen (pre ++ (u ++ [d])) - 1]? = (String.utf8EncodeChar d).getLast? := by
    have hpos := d.utf8Size_pos
    rw [hlen, hbytes, List.getElem?_append_right (by omega), Nat.add_sub_cancel_left,
      List.getElem?_append_left (by rw [String.length_utf8EncodeChar]; omega),
      List.getLast?_eq_getElem?, String.length_utf8EncodeChar]
  have hgt : byteLen (pre ++ (u ++ [d])) > byteLen pre := by
    have := d.utf8Size_pos
    simp only [byteLen_append, byteLen_cons, byteLen_nil]
    omega
  rw [hlast]
  constructor
  · rintro ⟨-, h⟩
    obtain ⟨-, hval⟩ := utf8EncodeChar_of_ascii_mem (b := 13) (by decide) (List.mem_of_getLast? h)
    obtain rfl : d = '\r' := Char.ext (UInt32.toNat_inj.mp hval)
    exact ⟨u, rfl⟩
  · rintro ⟨t, ht⟩
    obtain rfl : d = '\r' := (List.cons.inj (List.append_inj_right' ht rfl)).1
    exact ⟨hgt, by decide +kernel⟩

theorem lineLoop_cut {out : List SourceLine × Nat} (hcur : '\n' ∉ cur)
    (hraw : raw = asBytes (String.ofList (pre ++ cur ++ rest)))
    (h : lineLoop raw (byteLen pre) (byteLen (pre ++ cur)) lines
      (asBytes (String.ofList rest)) = .ok out) :
    ∃ ls, finish raw out = lines ++ ls ∧ Cut (byteLen pre) (cur ++ rest) ls := by
  induction rest generalizing pre cur lines with
  | nil =>
    rw [asBytes_ofList, List.flatMap_nil, lineLoop] at h
    cases h
    have hlen : raw.length = byteLen pre + byteLen cur := by
      rw [hraw, length_asBytes, List.append_nil, byteLen_append]
    rw [List.append_nil, finish, hlen]
    by_cases hne : cur = []
    · subst hne
      exact ⟨[], by simp, .nil _⟩
    · have := byteLen_pos hne
      rw [if_pos (by dsimp only; omega)]
      exact ⟨_, rfl, .last hne hcur⟩
  | cons c rest ih =>
    by_cases hc : c = '\n'
    · subst hc
      have hfeed : asBytes (String.ofList ('\n' :: rest)) = 10 :: asBytes (String.ofList rest) := by
        rw [asBytes_ofList, asBytes_ofList, List.flatMap_cons]
        rfl
      have hnext : byteLen (pre ++ cur ++ ['\n']) = byteLen (pre ++ cur) + 1 := by
        rw [byteLen_append]
        rfl
      rw [hfeed, lineLoop, if_pos rfl] at h
      dsimp only at h
      split at h
      · cases h
      rw [← hnext] at h
      obtain ⟨ls, hls, hrest⟩ : ∃ ls, finish raw out = _ ++ ls ∧
          Cut (byteLen (pre ++ cur ++ ['\n'])) ([] ++ rest) ls :=
        ih (by simp) (by rw [hraw]; simp) (by rw [List.append_nil]; exact h)
      rw [List.append_assoc] at hls
      refine ⟨_, hls, ?_⟩
      rw [List.nil_append, hnext] at hrest
      have hcr := @crBefore_iff raw pre cur ('\n' :: rest) hraw
      by_cases hend : ∃ t, cur = t ++ ['\r']
      · obtain ⟨hgt, hbyte⟩ := hcr.mpr hend
        obtain ⟨t, rfl⟩ := hend
        have hstop : byteLen (pre ++ (t ++ ['\r'])) - 1 = byteLen pre + byteLen t := by
          simp [← Nat.add_assoc, Char.utf8Size]
        have hrest' : Cut (byteLen pre + byteLen t + byteLen (endingText .crLf)) rest ls := by
          rw [endingText_eq.2.1]
          rwa [byteLen_append, byteLen_append, ← Nat.add_assoc] at hrest
        have hyes : (decide (byteLen (pre ++ (t ++ ['\r'])) > byteLen pre) &&
            decide (raw[byteLen (pre ++ (t ++ ['\r'])) - 1]? = some 13)) = true := by
          rw [Bool.and_eq_true, decide_eq_true_eq, decide_eq_true_eq]
          exact ⟨hgt, hbyte⟩
        simp only [hyes, if_true]
        have ht : '\n' ∉ t := fun hmem => hcur (List.mem_append_left _ hmem)
        have hline := Cut.line .crLf (by decide) ht (fun h => by cases h) hrest'
        rw [endingText_eq.2.1] at hline
        rw [hstop, List.append_assoc]
        exact hline
      · have hno : (decide (byteLen (pre ++ cur) > byteLen pre) &&
            decide (raw[byteLen (pre ++ cur) - 1]? = some 13)) = false := by
          rw [Bool.eq_false_iff, ne_eq, Bool.and_eq_true, decide_eq_true_eq, decide_eq_true_eq, hcr]
          exact hend
        simp only [hno, Bool.false_eq_true, if_false]
        have hrest' : Cut (byteLen pre + byteLen cur + byteLen (endingText .lf)) rest ls := by
          rw [endingText_eq.1]
          rwa [byteLen_append] at hrest
        have hline := Cut.line .lf (by decide) hcur (fun _ u hu => hend ⟨u, hu⟩) hrest'
        rw [endingText_eq.1] at hline
        rw [byteLen_append]
        exact hline
    · have hskip : asBytes (String.ofList (c :: rest)) =
          String.utf8EncodeChar c ++ asBytes (String.ofList rest) := by
        rw [asBytes_ofList, asBytes_ofList, List.flatMap_cons]
      have hnext : byteLen (pre ++ cur) + (String.utf8EncodeChar c).length =
          byteLen (pre ++ (cur ++ [c])) := by
        rw [String.length_utf8EncodeChar]
        simp only [byteLen_append, byteLen_cons, byteLen_nil]
        omega
      rw [hskip, lineLoop_skip (not_mem_encode hc), hnext] at h
      have hnext' : '\n' ∉ cur ++ [c] := by simp [hcur, Ne.symm hc]
      have hrec : ∃ ls, finish raw out = lines ++ ls ∧
          Cut (byteLen pre) (cur ++ [c] ++ rest) ls := ih hnext' (by rw [hraw]; simp) h
      simpa using hrec

theorem ofUtf8_cut {bytes : Bytes} {d : SourceDocument} (h : SourceDocument.ofUtf8 bytes = .ok d) :
    fromUtf8 bytes = some d.raw ∧ Cut 0 d.raw.toList d.lines := by
  unfold SourceDocument.ofUtf8 at h
  split at h
  · cases h
  split at h
  · cases h
  rename_i raw hraw
  split at h
  · cases h
  rename_i out hloop
  dsimp only at h
  split at h
  · cases h
  cases h
  obtain ⟨ls, hls, hcut⟩ := @lineLoop_cut (asBytes raw) [] [] [] raw.toList out
    List.not_mem_nil (by rw [List.nil_append, List.nil_append, String.ofList_toList])
    (by rw [String.ofList_toList]; exact hloop)
  rw [List.nil_append] at hls
  rw [← hls] at hcut
  exact ⟨hraw, hcut⟩

theorem ofUtf8_lined {bytes : Bytes} {d : SourceDocument} (h : SourceDocument.ofUtf8 bytes = .ok d) :
    fromUtf8 bytes = some d.raw ∧ Lined 0 d.raw.toList d.lines :=
  ⟨(ofUtf8_cut h).1, (ofUtf8_cut h).2.lined⟩

theorem Lined.head_start {p : Nat} {t : List Char} {l : SourceLine} {ls : List SourceLine}
    (h : Lined p t (l :: ls)) : l.content.start = p := by
  cases h <;> rfl

/-- A line, its ending and the next line are slices that follow each other. -/
theorem Lined.slices {p : Nat} {t T x : List Char} {ls : List SourceLine} (h : Lined p t ls)
    (hT : T = x ++ t) (hx : byteLen x = p) {k : Nat} {l : SourceLine} (hl : ls[k]? = some l) :
    (∃ s, slice T l.content = some s) ∧ ∀ l', ls[k + 1]? = some l' →
      slice T ⟨l.content.stop, l'.content.start⟩ = some (endingText l.ending) := by
  induction h generalizing x k with
  | nil p => cases hl
  | @last p t hne =>
    cases k with
    | zero =>
      cases hl
      refine ⟨⟨t, slice_eq_some_iff.mpr ⟨x, [], by simp [hT], hx, by dsimp only; omega⟩⟩, ?_⟩
      exact fun l' hl' => by cases hl'
    | succ k => cases hl
  | @line p t rest ls e hrest ih =>
    cases k with
    | zero =>
      cases hl
      refine ⟨⟨t, slice_eq_some_iff.mpr ⟨x, endingText e ++ rest, by simp [hT], hx,
        by dsimp only; omega⟩⟩, fun l' hl' => ?_⟩
      obtain ⟨ls, rfl⟩ : ∃ ls', ls = l' :: ls' := by
        cases ls with
        | nil => cases hl'
        | cons l ls => exact ⟨ls, by rw [Option.some.inj hl']⟩
      rw [hrest.head_start]
      refine slice_eq_some_iff.mpr ⟨x ++ t, rest, by simp [hT], ?_, ?_⟩
      · rw [byteLen_append, hx]
      · rw [byteLen_append, hx]
    | succ k =>
      have hT' : T = x ++ (t ++ endingText e) ++ rest := by simp [hT]
      refine ih hT' ?_ hl
      rw [byteLen_append, byteLen_append, hx, Nat.add_assoc]

end Lines

/-! ## Rows of a document -/

/-- The rows of a file on a side are lines of a document. -/
def RowsOf (d : SourceDocument) (f : FileChange) (side : Side) : Prop :=
  ∀ r ∈ f.allRows, ∀ n, r.number side = some n → 0 < n ∧ ∃ l, d.lines[n - 1]? = some l ∧
    slice d.raw.toList l.content = some r.text.toList ∧ l.ending = r.ending

section Copy

variable {d : SourceDocument} {f : FileChange} {side : Side} {bytes : Bytes} {a b : SourcePoint}

theorem line_row {n : Nat} {row : PatchRow} (hrows : RowsOf d f side)
    (h : f.line side n = some row) : 0 < n ∧ ∃ l, d.lines[n - 1]? = some l ∧
      slice d.raw.toList l.content = some row.text.toList ∧ l.ending = row.ending := by
  have hnumber := List.find?_some h
  exact hrows row (List.mem_of_find?_eq_some h) n (by simpa using hnumber)

/-- A point is in a row of the file, on a character boundary. -/
def PointIn (f : FileChange) (p : SourcePoint) : Prop :=
  ∃ row, f.line p.side p.line = some row ∧ isCharBoundary row.text.toList p.byteColumn = true

/-- Where a point of a document is, in bytes. -/
theorem offset_eq {n col : Nat} {l : SourceLine} {t : List Char} (hn : 0 < n)
    (hl : d.lines[n - 1]? = some l) (ht : slice d.raw.toList l.content = some t)
    (hcol : isCharBoundary t col = true) : d.offset n col = .ok (l.content.start + col) := by
  have hle := isCharBoundary_le hcol
  have hstop := slice_stop ht
  have hlen : ¬ col > l.content.len := by
    rw [Span.len]
    omega
  rw [offset, if_neg (by omega), hl]
  simp [hlen, isCharBoundary_slice ht hcol]

/-- **The rows between two points make the slice between them.** The induction is on the number of
lines that are left; it begins behind the first point in the first line, and at the line's start in
the others. -/
theorem copyLines_slice (hd : Lined 0 d.raw.toList d.lines) (hrows : RowsOf d f a.side)
    {count n : Nat} (hn : n + count = b.line) (hfirst : a.line ≤ n) {lo : Nat}
    (hlo : lo = if n = a.line then a.byteColumn else 0)
    (hcol : n = b.line → lo ≤ b.byteColumn) {row : PatchRow} (hrow : f.line a.side n = some row)
    (hstart : isCharBoundary row.text.toList lo = true) (hb : ∃ row, f.line a.side b.line = some row ∧
      isCharBoundary row.text.toList b.byteColumn = true)
    (hloaded : ∀ m, n ≤ m → m ≤ b.line → (f.line a.side m).isSome) :
    ∃ out l l', copyLines f a b (count + 1) n = .ok out ∧ d.lines[n - 1]? = some l ∧
      d.lines[b.line - 1]? = some l' ∧
      slice d.raw.toList ⟨l.content.start + lo, l'.content.start + b.byteColumn⟩ = some out := by
  induction count generalizing n lo row with
  | zero =>
    obtain rfl : n = b.line := by omega
    obtain ⟨row', hrow', hbcol⟩ := hb
    obtain rfl : row' = row := Option.some.inj (hrow'.symm.trans hrow)
    obtain ⟨-, l, hl, htext, -⟩ := line_row hrows hrow
    obtain ⟨piece, hpiece⟩ := exists_slice hstart hbcol (hcol rfl)
    refine ⟨piece, l, l, ?_, hl, hl, slice_slice htext hpiece⟩
    rw [copyLines, hrow]
    simp only [← hlo, if_true, hpiece, copyLines]
    simp [Except.map]
  | succ count ih =>
    have hlt : n ≠ b.line := by omega
    obtain ⟨hpos, l, hl, htext, hending⟩ := line_row hrows hrow
    obtain ⟨next, hnext⟩ := Option.isSome_iff_exists.mp (hloaded (n + 1) (by omega) (by omega))
    have hne : n + 1 ≠ a.line := by omega
    obtain ⟨out, l₂, l', hout, hl₂, hl', hslice⟩ := @ih (n + 1) (by omega) (by omega) 0
      (by rw [if_neg hne]) (fun _ => Nat.zero_le _) next hnext (isCharBoundary_zero _)
      fun m hm => hloaded m (by omega)
    obtain ⟨piece, hpiece⟩ := exists_slice hstart (isCharBoundary_byteLen _)
      (isCharBoundary_le hstart)
    have hk : n - 1 + 1 = n + 1 - 1 := by omega
    have hbetween := (hd.slices (List.nil_append _).symm rfl hl).2 l₂ (by rw [hk]; exact hl₂)
    have hhead := slice_slice htext hpiece
    rw [← slice_stop htext] at hhead
    rw [Nat.add_zero] at hslice
    refine ⟨piece ++ endingText row.ending ++ out, l, l', ?_, hl, hl', ?_⟩
    · rw [copyLines, hrow]
      simp only [← hlo, hlt, if_false, hpiece, hout, ne_eq, not_false_eq_true, if_true]
      rfl
    · rw [← hending]
      exact slice_join (slice_join hhead hbetween) hslice

/-- What is copied is loaded. -/
theorem loaded_of_copyLines {count n : Nat} {out : List Char}
    (h : copyLines f a b count n = .ok out) :
    ∀ m, n ≤ m → m < n + count → (f.line a.side m).isSome := by
  induction count generalizing n out with
  | zero =>
    intro m hle hlt
    omega
  | succ count ih =>
    intro m hle hlt
    rw [copyLines] at h
    cases hrow : f.line a.side n with
    | none =>
      rw [hrow] at h
      cases h
    | some row =>
      rw [hrow] at h
      dsimp only at h
      split at h
      · cases h
      · obtain ⟨rest, hrest, -⟩ := ok_of_map h
        rcases Nat.eq_or_lt_of_le hle with rfl | hlt'
        · rw [hrow]
          rfl
        · exact ih hrest m hlt' (by omega)

/-! ## Selections -/

/-- Two points of one file and side that are both valid. -/
structure Selected (s : Snapshot) (f : FileChange) (side : Side) (sel : SourceSelection) : Prop where
  file : s.file sel.start.file = some f ∧ s.file sel.stop.file = some f
  same : sel.start.snapshot = sel.stop.snapshot ∧ sel.start.file = sel.stop.file
  side : sel.start.side = side ∧ sel.stop.side = side
  valid : (s.validatePoint sel.start).isOk ∧ (s.validatePoint sel.stop).isOk

/-- The selection from the other end. -/
def swap (sel : SourceSelection) : SourceSelection := { start := sel.stop, stop := sel.start }

variable {s : Snapshot} {sel : SourceSelection} {p : SourcePoint}

theorem pointIn_of_valid (hf : s.file p.file = some f) (h : (s.validatePoint p).isOk) :
    PointIn f p := by
  obtain ⟨row, h⟩ := ok_of_isOk h
  unfold validatePoint at h
  split at h
  · cases h
  rw [hf, Option.bind_some] at h
  split at h
  · cases h
  rename_i row' hrow
  split at h
  · cases h
  · rename_i hcol
    exact ⟨row', hrow, by simpa using hcol⟩

/-- The first and the last point. -/
def ends (sel : SourceSelection) : SourcePoint × SourcePoint :=
  if atOrBefore sel.start sel.stop then (sel.start, sel.stop) else (sel.stop, sel.start)

theorem copySelection_eq (h : Selected s f side sel) : s.copySelection sel =
    (copyLines f (ends sel).1 (ends sel).2 ((ends sel).2.line + 1 - (ends sel).1.line)
      (ends sel).1.line).map String.ofList := by
  obtain ⟨row, hrow⟩ := ok_of_isOk h.valid.1
  obtain ⟨row', hrow'⟩ := ok_of_isOk h.valid.2
  have hfile : s.file (ends sel).1.file = some f := by
    rw [ends]
    split
    · exact h.file.1
    · exact h.file.2
  have hends : (if atOrBefore sel.start sel.stop then (sel.start, sel.stop)
      else (sel.stop, sel.start)) = ends sel := rfl
  have hsides : sel.start.side = sel.stop.side := h.side.1.trans h.side.2.symm
  simp only [copySelection, h.same.1, h.same.2, hsides, hrow, hrow', hends, ne_eq, not_true_eq_false,
    or_self, if_false]
  dsimp only [bind, Except.bind]
  rw [hfile]

theorem ends_spec (h : Selected s f side sel) : PointIn f (ends sel).1 ∧ PointIn f (ends sel).2 ∧
    (ends sel).1.side = side ∧ (ends sel).2.side = side ∧
    ((ends sel).1.line < (ends sel).2.line ∨
      (ends sel).1.line = (ends sel).2.line ∧ (ends sel).1.byteColumn ≤ (ends sel).2.byteColumn) := by
  have hstart := pointIn_of_valid h.file.1 h.valid.1
  have hstop := pointIn_of_valid h.file.2 h.valid.2
  rw [ends]
  split
  · rename_i hle
    refine ⟨hstart, hstop, h.side.1, h.side.2, ?_⟩
    simpa [atOrBefore] using hle
  · rename_i hgt
    refine ⟨hstop, hstart, h.side.2, h.side.1, ?_⟩
    simp only [atOrBefore, Bool.or_eq_true, Bool.and_eq_true, decide_eq_true_eq] at hgt
    dsimp only
    omega

theorem Selected.swap (h : Selected s f side sel) : Selected s f side (swap sel) where
  file := ⟨h.file.2, h.file.1⟩
  same := ⟨h.same.1.symm, h.same.2.symm⟩
  side := ⟨h.side.2, h.side.1⟩
  valid := ⟨h.valid.2, h.valid.1⟩

/-- Only the side and the places of the two points count. -/
theorem copyLines_congr {a' b' : SourcePoint} (hside : a'.side = a.side) (ha : a'.line = a.line)
    (hacol : a'.byteColumn = a.byteColumn) (hb : b'.line = b.line)
    (hbcol : b'.byteColumn = b.byteColumn) (count n : Nat) :
    copyLines f a' b' count n = copyLines f a b count n := by
  induction count generalizing n with
  | zero => rfl
  | succ count ih => rw [copyLines, copyLines, hside, ha, hacol, hb, hbcol, ih]

theorem copySelection_swap (h : Selected s f side sel) :
    s.copySelection (swap sel) = s.copySelection sel := by
  have hsides : sel.start.side = sel.stop.side := h.side.1.trans h.side.2.symm
  rw [copySelection_eq h, copySelection_eq h.swap, ends, ends, Copy.swap]
  dsimp only
  cases hbefore : atOrBefore sel.start sel.stop <;> cases hafter : atOrBefore sel.stop sel.start
  · -- One of two points is the first.
    simp [atOrBefore] at hbefore hafter
    omega
  · rfl
  · rfl
  · -- Both points are at one place.
    obtain ⟨hline, hcol⟩ : sel.stop.line = sel.start.line ∧
        sel.stop.byteColumn = sel.start.byteColumn := by
      simp only [atOrBefore, Bool.or_eq_true, Bool.and_eq_true, decide_eq_true_eq] at hbefore hafter
      omega
    simp only [if_true, hline]
    rw [copyLines_congr hsides.symm hline hcol hline.symm hcol.symm]

theorem copySourceRange_eq {x y : Nat} {out : List Char}
    (h : slice d.raw.toList ⟨x, y⟩ = some out) :
    copySourceRange d.rawBytes ⟨x, y⟩ = .ok (String.ofList out) := by
  obtain ⟨pre, post, htext, hx, hy⟩ := slice_eq_some_iff.mp h
  have hlen := length_asBytes_toList d.raw
  rw [htext, byteLen_append, byteLen_append] at hlen
  have hin : ¬ (x > y ∨ y > (asBytes d.raw).length) := by
    dsimp only at hx hy
    omega
  rw [copySourceRange, SourceDocument.rawBytes, fromUtf8_asBytes]
  dsimp only
  rw [if_neg hin, h]

/-- **Copying gives the exact source.** A selection of two valid points in rows of a document is
copied if and only if all lines between them are loaded. What is copied is the slice of the document
from the first point to the last, and does not depend on where the selection was begun. -/
theorem copySelection_exact (hd : SourceDocument.ofUtf8 bytes = .ok d) (hrows : RowsOf d f side)
    (h : Selected s f side sel) :
    ((s.copySelection sel).isOk ↔ ∀ n, (ends sel).1.line ≤ n → n ≤ (ends sel).2.line →
      (f.line side n).isSome) ∧
    (∀ text, s.copySelection sel = .ok text → ∃ x y,
      d.offset (ends sel).1.line (ends sel).1.byteColumn = .ok x ∧
      d.offset (ends sel).2.line (ends sel).2.byteColumn = .ok y ∧
      copySourceRange d.rawBytes ⟨x, y⟩ = .ok text) ∧
    s.copySelection (swap sel) = s.copySelection sel := by
  have hlined := (ofUtf8_lined hd).2
  have heq := copySelection_eq h
  obtain ⟨⟨row, hrow, hcol⟩, hlast, hside, hside', hle⟩ := ends_spec h
  have hcopied : (∀ n, (ends sel).1.line ≤ n → n ≤ (ends sel).2.line → (f.line side n).isSome) →
      ∃ out x y, s.copySelection sel = .ok (String.ofList out) ∧
        d.offset (ends sel).1.line (ends sel).1.byteColumn = .ok x ∧
        d.offset (ends sel).2.line (ends sel).2.byteColumn = .ok y ∧
        slice d.raw.toList ⟨x, y⟩ = some out := by
    intro hall
    rw [← hside] at hall hrows
    have hb : ∃ row, f.line (ends sel).1.side (ends sel).2.line = some row ∧
        isCharBoundary row.text.toList (ends sel).2.byteColumn = true := by
      rw [hside, ← hside']
      exact hlast
    have hcopy := @copyLines_slice d f (ends sel).1 (ends sel).2 hlined hrows
      ((ends sel).2.line - (ends sel).1.line) (ends sel).1.line (by omega) (le_refl _)
      (ends sel).1.byteColumn (if_pos rfl).symm (fun _ => by omega) row hrow hcol hb hall
    obtain ⟨out, l, l', hout, hl, hl', hslice⟩ := hcopy
    have hcount : (ends sel).2.line + 1 - (ends sel).1.line =
        (ends sel).2.line - (ends sel).1.line + 1 := by omega
    obtain ⟨hpos, l₁, hl₁, htext, -⟩ := line_row hrows hrow
    obtain rfl : l₁ = l := Option.some.inj (hl₁.symm.trans hl)
    obtain ⟨row', hrow', hcol'⟩ := hb
    obtain ⟨hpos', l₂, hl₂, htext', -⟩ := line_row hrows hrow'
    obtain rfl : l₂ = l' := Option.some.inj (hl₂.symm.trans hl')
    refine ⟨out, _, _, ?_, offset_eq hpos hl htext hcol, offset_eq hpos' hl' htext' hcol', hslice⟩
    rw [heq, hcount, hout]
    rfl
  have hloaded : (s.copySelection sel).isOk → ∀ n, (ends sel).1.line ≤ n →
      n ≤ (ends sel).2.line → (f.line side n).isSome := by
    intro hok n hfirst hlast
    obtain ⟨text, htext⟩ := ok_of_isOk hok
    rw [heq] at htext
    obtain ⟨out, hout, -⟩ := ok_of_map htext
    rw [← hside]
    exact loaded_of_copyLines hout n hfirst (by omega)
  refine ⟨⟨hloaded, fun hall => ?_⟩, fun text htext => ?_, copySelection_swap h⟩
  · obtain ⟨out, x, y, hout, -⟩ := hcopied hall
    rw [hout]
    rfl
  · obtain ⟨out, x, y, hout, hx, hy, hslice⟩ := hcopied (hloaded (by rw [htext]; rfl))
    rw [hout] at htext
    cases htext
    exact ⟨x, y, hx, hy, copySourceRange_eq hslice⟩

end Copy

/-- The new side of a hunk with both line endings and no final newline. -/
def copiedBytes : Bytes := asBytes "a\r\nbé\nc"

def copiedDocument : SourceDocument where
  raw := "a\r\nbé\nc"
  lines :=
    [{ content := ⟨0, 1⟩, ending := .crLf }, { content := ⟨3, 6⟩, ending := .lf },
     { content := ⟨7, 8⟩, ending := .none }]

def copiedFile : FileChange where
  id := ⟨"f"⟩
  oldPath := none
  newPath := none
  kind := .modified
  content := .text
  oldMode := none
  newMode := none
  oldOid := none
  newOid := none
  metadata := []
  hunks :=
    [{ oldStart := 1, oldCount := 3, newStart := 1, newCount := 3, sectionText := ""
       rows :=
        [{ oldLine := some 1, newLine := some 1, text := "a", ending := .crLf, kind := .context },
         { oldLine := some 2, newLine := none, text := "b", ending := .lf, kind := .removed },
         { oldLine := none, newLine := some 2, text := "bé", ending := .lf, kind := .added },
         { oldLine := some 3, newLine := some 3, text := "c", ending := .none, kind := .context }] }]

def copiedSnapshot : Snapshot where
  id := ⟨"s"⟩
  title := ""
  origin := ""
  patch := ⟨[copiedFile]⟩
  remote := none
  comments := []
  overview := .empty
  warnings := []

/-- From before the last line to inside of the first. -/
def copiedSelection : SourceSelection where
  start := { snapshot := ⟨"s"⟩, file := ⟨"f"⟩, side := .right, line := 3, byteColumn := 0 }
  stop := { snapshot := ⟨"s"⟩, file := ⟨"f"⟩, side := .right, line := 1, byteColumn := 1 }

theorem copied_document : SourceDocument.ofUtf8 copiedBytes = .ok copiedDocument := by
  decide +kernel

theorem copied_rows : RowsOf copiedDocument copiedFile .right := by
  intro r hr n hn
  simp only [FileChange.allRows, copiedFile, List.flatMap_cons, List.flatMap_nil, List.append_nil,
    List.mem_cons, List.not_mem_nil, or_false] at hr
  rcases hr with rfl | rfl | rfl | rfl <;> cases hn
  · exact ⟨by decide, _, rfl, by decide +kernel, rfl⟩
  · exact ⟨by decide, _, rfl, by decide +kernel, rfl⟩
  · exact ⟨by decide, _, rfl, by decide +kernel, rfl⟩

theorem copied_selected : Selected copiedSnapshot copiedFile .right copiedSelection :=
  ⟨⟨by decide, by decide⟩, ⟨rfl, rfl⟩, ⟨rfl, rfl⟩, ⟨by decide +kernel, by decide +kernel⟩⟩

theorem copied_exact :
    ((copiedSnapshot.copySelection copiedSelection).isOk ↔
      ∀ n, (ends copiedSelection).1.line ≤ n → n ≤ (ends copiedSelection).2.line →
        (copiedFile.line .right n).isSome) ∧
    (∀ text, copiedSnapshot.copySelection copiedSelection = .ok text → ∃ x y,
      copiedDocument.offset (ends copiedSelection).1.line (ends copiedSelection).1.byteColumn =
        .ok x ∧
      copiedDocument.offset (ends copiedSelection).2.line (ends copiedSelection).2.byteColumn =
        .ok y ∧
      copySourceRange copiedDocument.rawBytes ⟨x, y⟩ = .ok text) ∧
    copiedSnapshot.copySelection (swap copiedSelection) =
      copiedSnapshot.copySelection copiedSelection :=
  copySelection_exact copied_document copied_rows copied_selected

example : copiedSnapshot.copySelection copiedSelection = .ok "\r\nbé\n" := by decide +kernel

end Copy
end Proof
end Diffz
