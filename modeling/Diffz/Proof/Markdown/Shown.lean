import Mathlib.Data.List.Sort
import Diffz.Proof.Markdown.Loop

/-!
# Code and images that are shown

Code is shown as it is, unless it begins in a comment or in an image tag. The openers of images are
replaced once, which leaves some.
-/

set_option autoImplicit false

namespace Diffz
namespace Proof
namespace Markdown

open Diffz.Markdown

variable {body : List Char} {code : List (Nat × Nat)}

/-! ## The code that is shown -/

/-- A comment or an image tag goes over the position. -/
def covered (pieces : List Piece) (pos : Nat) : Bool :=
  pieces.any fun p => decide (p.kind ≠ .code ∧ p.start < pos ∧ pos < p.stop)

def Piece.isCode (p : Piece) : Bool := decide (p.kind = .code)

def Piece.range (p : Piece) : Nat × Nat := (p.start, p.stop)

theorem Fits.of_isCode {p : Piece} (h : Fits body code p) (hcode : p.isCode = true) :
    p.range ∈ code := by
  cases h with
  | code h => exact h
  | text | image | cut | hidden | unclosed => cases hcode

theorem Fits.isCode_of_start {p : Piece} (hr : Ranges body code) (h : Fits body code p)
    {r : Nat × Nat} (hmem : r ∈ code) (hstart : r.1 = p.start) : p.isCode = true ∧ p.range = r := by
  have heq := h.unique hr (.code hmem) hstart.symm
  subst heq
  exact ⟨rfl, rfl⟩

/-- The code that begins in no comment and in no image tag is the code among the pieces. -/
theorem Cover.code_eq (hr : Ranges body code) {pieces : List Piece} (h : Cover body code pieces) :
    (pieces.filter Piece.isCode).map Piece.range = code.filter fun r => !covered pieces r.1 := by
  have hfirst : ((pieces.filter Piece.isCode).map Piece.range).Pairwise fun r r' => r.1 < r'.1 := by
    rw [List.pairwise_map]
    refine List.Pairwise.imp_of_mem (fun ha _ hle => ?_) (h.tiles.apart.filter _)
    have := h.tiles.bounds _ (List.mem_of_mem_filter ha)
    simp only [Piece.range]
    omega
  have hsecond : (code.filter fun r => !covered pieces r.1).Pairwise fun r r' => r.1 < r'.1 := by
    refine List.Pairwise.imp_of_mem (fun ha _ hle => ?_) (hr.apart.filter _)
    have := (hr.proper _ (List.mem_of_mem_filter ha)).1
    omega
  have : Std.Irrefl fun r r' : Nat × Nat => r.1 < r'.1 := ⟨fun r => Nat.lt_irrefl r.1⟩
  have : Std.Antisymm fun r r' : Nat × Nat => r.1 < r'.1 :=
    ⟨fun _ _ hlt hgt => absurd hlt (Nat.lt_asymm hgt)⟩
  refine hfirst.eq_of_mem_iff hsecond fun r => ?_
  rw [List.mem_map, List.mem_filter]
  constructor
  · rintro ⟨p, hp, rfl⟩
    obtain ⟨hp, hcode⟩ := List.mem_filter.1 hp
    refine ⟨(h.fits p hp).of_isCode hcode, ?_⟩
    -- Another piece would overlap the code.
    rw [Bool.not_eq_true', covered, List.any_eq_false]
    intro q hq
    rw [decide_eq_true_eq]
    rintro ⟨-, hbefore, hbehind⟩
    have := start_outside (fun a ha => (h.tiles.bounds a ha).2.1) h.tiles.apart hq hp hbefore
    simp only [Piece.range] at hbehind
    omega
  · rintro ⟨hmem, hcovered⟩
    obtain ⟨hlt, hle⟩ := hr.proper r hmem
    obtain ⟨p, hp, hstart, hstop⟩ := h.tiles.exists_mem (Nat.zero_le r.1) (hlt.trans_le hle)
    rcases hstart.eq_or_lt with heq | hbefore
    · obtain ⟨hcode, hrange⟩ := (h.fits p hp).isCode_of_start hr hmem heq.symm
      exact ⟨p, List.mem_filter.2 ⟨hp, hcode⟩, hrange⟩
    · rw [Bool.not_eq_true', covered, List.any_eq_false] at hcovered
      have hcode : p.isCode = true := by
        have := hcovered p hp
        simp only [decide_eq_true_eq, not_and] at this
        by_contra hkind
        exact this (by simpa [Piece.isCode] using hkind) hbefore hstop
      have := start_outside (fun a ha => (hr.proper a ha).1) hr.apart
        ((h.fits p hp).of_isCode hcode) hmem hbefore
      exact absurd this (Nat.not_le.2 hstop)

/-- The code of what is shown. -/
def codes (parts : List Part) : List (List Char) :=
  parts.filterMap fun
    | .code raw => some raw
    | .text _ => none

theorem codes_emit (body : List Char) (page : Page) (p : Piece) :
    codes (page.emit body p).parts =
      codes page.parts ++ if p.isCode then [between body p.start p.stop] else [] := by
  cases hkind : p.kind <;> simp [Page.emit, Page.add, Piece.isCode, codes, hkind]

theorem codes_foldl (body : List Char) (pieces : List Piece) (page : Page) :
    codes (pieces.foldl (Page.emit body) page).parts = codes page.parts ++
      ((pieces.filter Piece.isCode).map Piece.range).map fun r => between body r.1 r.2 := by
  induction pieces generalizing page with
  | nil => simp
  | cons p pieces ih =>
    rw [List.foldl_cons, ih, codes_emit, List.filter_cons]
    split <;> simp [Piece.range]

/-- **Code is shown as it is.** In its order, each range that begins in no comment and in no image
tag; the others are not shown as code. -/
theorem codes_shown (hr : Ranges body code) {pieces : List Piece} (h : Cover body code pieces) :
    codes (pageOf body pieces).shown =
      (code.filter fun r => !covered pieces r.1).map fun r => between body r.1 r.2 := by
  have hparts := codes_foldl body pieces .blank
  rw [h.code_eq hr] at hparts
  rw [Page.shown, codes, List.filterMap_append]
  simpa [codes, pageOf, Page.blank] using hparts

theorem codes_shown_sample : ∃ pieces, Cover sampleBody sampleCode pieces ∧
    codes (pageOf sampleBody pieces).shown =
      (sampleCode.filter fun r => !covered pieces r.1).map fun r => between sampleBody r.1 r.2 := by
  obtain ⟨pieces, hcover, -⟩ := exists_cover sample_ranges
  exact ⟨pieces, hcover, codes_shown sample_ranges hcover⟩

/-! ## Images -/

theorem infix_word {p w l : List Char} (hw : '!' ∉ w) :
    '!' :: p <:+: w ++ l ↔ '!' :: p <:+: l := by
  induction w with
  | nil => rfl
  | cons c w ih =>
    obtain ⟨hc, hw⟩ := List.ne_and_not_mem_of_not_mem_cons hw
    rw [List.cons_append, List.infix_cons_iff, ih hw, List.cons_prefix_cons]
    simp [hc]

theorem head_replaceOpeners (l : List Char) :
    ['['] <+: replaceOpeners l ↔ ['['] <+: l ∨ ['!', '['] <+: l := by
  fun_cases replaceOpeners l with
  | case1 rest =>
    have himage : ['['] <+: imageText := ⟨"image: ".toList, rfl⟩
    exact iff_of_true (himage.trans (List.prefix_append _ _)) (.inr ⟨rest, rfl⟩)
  | case2 c rest hnot =>
    have hopener : ¬ ['!', '['] <+: c :: rest := by
      rw [List.cons_prefix_cons]
      rintro ⟨hc, t, ht⟩
      exact hnot t hc.symm ht.symm
    rw [or_iff_left hopener, List.cons_prefix_cons, List.cons_prefix_cons]
    simp only [List.nil_prefix]
  | case3 => simp

/-- An opener is left where a `!` stands before one. -/
theorem opener_left_iff (l : List Char) :
    ['!', '['] <:+: replaceOpeners l ↔ ['!', '!', '['] <:+: l := by
  induction l using replaceOpeners.induct with
  | case1 rest ih =>
    rw [replaceOpeners, infix_word (by decide), ih]
    simp [List.infix_cons_iff]
  | case2 c rest hnot ih =>
    rw [replaceOpeners.eq_2 c rest hnot, List.infix_cons_iff, ih, List.infix_cons_iff,
      List.cons_prefix_cons, head_replaceOpeners, List.cons_prefix_cons]
    refine or_congr_left (and_congr_right fun hc => or_iff_right fun hrest => ?_)
    obtain ⟨t, ht⟩ := hrest
    exact hnot t hc.symm ht.symm
  | case3 => simp [replaceOpeners]

theorem plain_ranges (body : List Char) : Ranges body [] := ⟨by simp, .nil⟩

theorem fold_plain (body : List Char) {pieces : List Piece} (h : ∀ p ∈ pieces, p.isCode = false)
    (page : Page) (hparts : page.parts = []) (hfresh : page.fresh = page.raw) :
    (pieces.foldl (Page.emit body) page).parts = [] ∧
      (pieces.foldl (Page.emit body) page).fresh = (pieces.foldl (Page.emit body) page).raw := by
  induction pieces generalizing page with
  | nil => exact ⟨hparts, hfresh⟩
  | cons p pieces ih =>
    obtain ⟨hp, hrest⟩ := List.forall_mem_cons.1 h
    refine ih hrest _ ?_ ?_
    all_goals
      cases hkind : p.kind
      case code => simp [Piece.isCode, hkind] at hp
      all_goals simp [Page.emit, Page.add, hkind, hparts, hfresh]

/-- **Images that are left.** A body without code still opens an image after its openers are
replaced, exactly where two `!` stood before one. -/
theorem opener_shown_iff {pieces : List Piece} (h : Cover body [] pieces) :
    ['!', '['] <:+: visibleChars body [] ↔ ['!', '!', '['] <:+: (pageOf body pieces).raw := by
  obtain ⟨pieces', hcover, hvisible⟩ := exists_cover (plain_ranges body)
  have hpieces := hcover.unique (plain_ranges body) h
  subst hpieces
  have hplain : ∀ p ∈ pieces', p.isCode = false := fun p hp => by
    by_contra hcode
    exact absurd ((h.fits p hp).of_isCode (by simpa using hcode)) List.not_mem_nil
  obtain ⟨hparts, hfresh⟩ := fold_plain body hplain .blank rfl rfl
  rw [hvisible, Page.shown, pageOf, hparts, ← hfresh]
  simpa [Part.shown] using opener_left_iff _

theorem opener_shown_left : ['!', '['] <:+: visibleChars "!![a](b)".toList [] ∧
    ∃ pieces, Cover "!![a](b)".toList [] pieces ∧
      (['!', '['] <:+: visibleChars "!![a](b)".toList [] ↔
        ['!', '!', '['] <:+: (pageOf "!![a](b)".toList pieces).raw) := by
  obtain ⟨pieces, hcover, -⟩ := exists_cover (plain_ranges "!![a](b)".toList)
  exact ⟨by decide, pieces, hcover, opener_shown_iff hcover⟩

end Markdown
end Proof
end Diffz
