import Diffz.Proof.Markdown.Pieces

/-!
# Markdown that is shown

The loop goes from piece to piece, though it looks at a comment a line at a time, and what it writes
is what the pieces write.
-/

set_option autoImplicit false

namespace Diffz
namespace Proof
namespace Markdown

open Diffz.Markdown

variable {body : List Char} {code : List (Nat × Nat)} {s s' : Scan} {pos : Nat}

/-! ## What is shown of them -/

/-- A part of what is shown. -/
inductive Part
  | text (raw : List Char)
  | code (raw : List Char)

def Part.shown : Part → List Char
  | .text raw => replaceOpeners raw
  | .code raw => raw

/-- The parts so far, the last of which is the text `fresh`, and all of it as it was before the
openers of images were replaced. -/
structure Page where
  parts : List Part
  fresh : List Char
  raw : List Char
  gap : Bool

namespace Page

def blank : Page := ⟨[], [], [], false⟩

/-- The comment that keeps two code delimiters apart which a hidden comment stood between. -/
def apart (page : Page) (next : List Char) : List Char :=
  if page.gap = true ∧ page.raw.getLast? = some '`' ∧ next.head? = some '`' then "<!---->".toList
  else []

def add (page : Page) (text : List Char) : Page :=
  { page with fresh := page.fresh ++ text, raw := page.raw ++ text, gap := false }

/-- What a piece adds. -/
def emit (body : List Char) (page : Page) (p : Piece) : Page :=
  let piece := between body p.start p.stop
  match p.kind with
  | .code =>
    { parts := page.parts ++ [.text (page.fresh ++ page.apart piece), .code piece], fresh := []
      raw := page.raw ++ page.apart piece ++ piece, gap := false }
  | .text => page.add (page.apart piece ++ piece)
  | .image => page.add "[image]".toList
  | .cut => page
  | .hidden => { page with gap := true }

def shown (page : Page) : List Part := page.parts ++ [.text page.fresh]

end Page

theorem separate_eq (page : Page) (next : List Char) :
    separate page.raw next page.gap = page.raw ++ page.apart next := by
  unfold separate Page.apart
  split
  · rfl
  · rw [List.append_nil]

/-- The variables of the loop hold a page. -/
structure Holds (s : Scan) (page : Page) : Prop where
  visible : s.visible = page.raw
  gap : s.gap = page.gap
  fresh : page.fresh <:+ page.raw
  kept : ∀ tail, writeKept (page.raw ++ tail) s.kept =
    (page.parts.flatMap Part.shown, page.raw.length - page.fresh.length)

theorem holds_start (code : List (Nat × Nat)) : Holds (.start code) .blank where
  visible := rfl
  gap := rfl
  fresh := List.suffix_refl _
  kept _ := rfl

theorem between_append (a b c : List Char) :
    between (a ++ b ++ c) a.length (a.length + b.length) = b := by
  rw [between, ← List.length_append, List.take_left, List.drop_left]

variable {page : Page}

theorem Holds.of_eq (h : Holds s page) (hvisible : s'.visible = s.visible) (hgap : s'.gap = s.gap)
    (hkept : s'.kept = s.kept) : Holds s' page where
  visible := hvisible.trans h.visible
  gap := hgap.trans h.gap
  fresh := h.fresh
  kept := by rw [hkept]; exact h.kept

theorem Holds.add (h : Holds s page) {text : List Char} (hvisible : s'.visible = s.visible ++ text)
    (hgap : s'.gap = false) (hkept : s'.kept = s.kept) : Holds s' (page.add text) where
  visible := by rw [hvisible, h.visible]; rfl
  gap := hgap
  fresh := by
    obtain ⟨x, hx⟩ := h.fresh
    exact ⟨x, by rw [Page.add, ← List.append_assoc, hx]⟩
  kept tail := by
    have hkept' := h.kept (text ++ tail)
    rw [hkept]
    simp only [Page.add, List.length_append, List.append_assoc, Nat.add_sub_add_right] at hkept' ⊢
    exact hkept'

/-- The code that is kept is written as it is, and the text before it without openers of images. -/
theorem Holds.keep (h : Holds s page) {text : List Char}
    (hvisible : s'.visible = separate s.visible text s.gap ++ text) (hgap : s'.gap = false)
    (hkept : s'.kept = s.kept ++ [((separate s.visible text s.gap).length,
      (separate s.visible text s.gap).length + text.length)]) :
    Holds s' { parts := page.parts ++ [.text (page.fresh ++ page.apart text), .code text], fresh := []
               raw := page.raw ++ page.apart text ++ text, gap := false } := by
  have hout : separate s.visible text s.gap = page.raw ++ page.apart text := by
    rw [h.visible, h.gap, separate_eq]
  refine ⟨by rw [hvisible, hout], hgap, List.nil_suffix, fun tail => ?_⟩
  obtain ⟨x, hx⟩ := h.fresh
  have hbase : page.raw.length - page.fresh.length = x.length := by
    rw [← hx, List.length_append, Nat.add_sub_cancel]
  have hold := h.kept (page.apart text ++ (text ++ tail))
  rw [hbase] at hold
  have hfresh : between (page.raw ++ page.apart text ++ text ++ tail) x.length
      (page.raw ++ page.apart text).length = page.fresh ++ page.apart text := by
    have hsplit := between_append x (page.fresh ++ page.apart text) (text ++ tail)
    rw [← List.length_append, ← List.append_assoc x, hx] at hsplit
    rw [List.append_assoc (page.raw ++ page.apart text), hsplit]
  have htext := between_append (page.raw ++ page.apart text) text tail
  rw [hkept, hout, writeKept, List.foldl_append]
  rw [writeKept] at hold
  simp only [List.append_assoc] at hold hfresh htext ⊢
  simp only [hold, List.foldl_cons, List.foldl_nil, hfresh, htext]
  simp [Part.shown, Nat.add_assoc]

/-! ## The loop -/

structure Ready (body : List Char) (code : List (Nat × Nat)) (s : Scan) : Prop where
  pos : s.pos ≤ body.length
  lineEnd : s.pos < s.lineEnd → s.lineEnd = lineEndAt body s.pos
  code : ∃ past, code = past ++ s.code ∧ ∀ r ∈ past, r.2 ≤ s.pos

theorem ready_start (body : List Char) (code : List (Nat × Nat)) : Ready body code (.start code) where
  pos := Nat.zero_le _
  lineEnd h := absurd h (Nat.lt_irrefl 0)
  code := ⟨[], rfl, by simp⟩

/-- The code that is not past. -/
def ahead (s : Scan) : List (Nat × Nat) := s.code.dropWhile fun r => r.2 ≤ s.pos

theorem Ready.ahead (h : Ready body code s) :
    ∃ past, code = past ++ Markdown.ahead s ∧ ∀ r ∈ past, r.2 ≤ s.pos := by
  obtain ⟨past, hcode, hpast⟩ := h.code
  refine ⟨past ++ s.code.takeWhile fun r => r.2 ≤ s.pos, ?_, fun r hr => ?_⟩
  · rw [List.append_assoc, Markdown.ahead, List.takeWhile_append_dropWhile, ← hcode]
  · rcases List.mem_append.1 hr with hr | hr
    · exact hpast r hr
    · simpa using List.mem_takeWhile_imp hr

theorem Ready.next (h : Ready body code s) (hpos : s.pos ≤ s'.pos) (hle : s'.pos ≤ body.length)
    (hcode : s'.code = Markdown.ahead s) (hline : s'.pos < s'.lineEnd →
      s'.lineEnd = lineEndAt body s'.pos) : Ready body code s' where
  pos := hle
  lineEnd := hline
  code := by
    obtain ⟨past, heq, hpast⟩ := h.ahead
    exact ⟨past, hcode ▸ heq, fun r hr => (hpast r hr).trans hpos⟩

/-- The next code is here, or no code is. -/
theorem ahead_head (hr : Ranges body code) (h : Ready body code s) :
    (∃ r ∈ code, r.1 = s.pos ∧ (ahead s).head? = some r) ∨
      (∀ r ∈ code, r.1 ≠ s.pos) ∧ ∀ r, (ahead s).head? = some r → r.1 ≠ s.pos := by
  obtain ⟨past, hcode, hpast⟩ := h.ahead
  by_cases hhere : ∃ r ∈ code, r.1 = s.pos
  · obtain ⟨r, hmem, hpos⟩ := hhere
    have hproper := (hr.proper r hmem).1
    refine .inl ⟨r, hmem, hpos, ?_⟩
    rw [hcode] at hmem
    rcases List.mem_append.1 hmem with hmem | hmem
    · have := hpast r hmem
      omega
    · cases hahead : ahead s with
      | nil => simp [hahead] at hmem
      | cons x rest =>
        rw [hahead] at hmem hcode
        rcases List.mem_cons.1 hmem with rfl | hrest
        · rfl
        · -- An earlier range that is not past would end behind the position.
          have hapart := (List.pairwise_append.1 (hcode ▸ hr.apart)).2.1
          have hle := (List.pairwise_cons.1 hapart).1 r hrest
          have hnot := List.head?_dropWhile_not (fun r : Nat × Nat => decide (r.2 ≤ s.pos)) s.code
          have hx : (ahead s).head? = some x := by rw [hahead]; rfl
          rw [← ahead, hx] at hnot
          simp only [decide_eq_false_iff_not] at hnot
          omega
  · refine .inr ⟨fun r hmem hpos => hhere ⟨r, hmem, hpos⟩, fun r hhead hpos => hhere ⟨r, ?_, hpos⟩⟩
    rw [hcode]
    exact List.mem_append_right _ (List.mem_of_mem_head? hhead)

theorem turn_code {r : Nat × Nat} (hhead : (ahead s).head? = some r) (hhidden : s.hidden = false)
    (hpos : r.1 = s.pos) : turn body s = { s with
      code := ahead s
      visible := separate s.visible (between body r.1 r.2) s.gap ++ between body r.1 r.2
      kept := s.kept ++ [((separate s.visible (between body r.1 r.2) s.gap).length,
        (separate s.visible (between body r.1 r.2) s.gap).length + (between body r.1 r.2).length)]
      gap := false, pos := r.2 } := by
  unfold turn
  simp only [ahead] at hhead
  simp only [hhead, hhidden, hpos, Bool.not_false, Bool.true_and, decide_true, Option.filter_some,
    if_true, ahead]

/-- Any other turn is in the text, and sees it up to the end of the line. -/
theorem turn_text (h : Ready body code s) (hhead : s.hidden = true ∨
    ∀ r, (ahead s).head? = some r → r.1 ≠ s.pos) :
    turn body s = textTurn body { s with code := ahead s } (lineEndAt body s.pos) := by
  have hfilter : ((ahead s).head?.filter fun r => !s.hidden && r.1 = s.pos) = none := by
    rw [Option.filter_eq_none_iff]
    intro r hr
    rcases hhead with hhidden | hhead
    · simp [hhidden]
    · simp [hhead r hr]
  have hline : (if s.lineEnd ≤ s.pos then lineEndAt body s.pos else s.lineEnd) =
      lineEndAt body s.pos := by
    split
    · rfl
    · exact h.lineEnd (by omega)
  unfold turn
  simp only [ahead] at hfilter
  simp only [hfilter, hline, ahead]

/-- The body from `pos` on is written to the page. -/
def Written (body : List Char) (code : List (Nat × Nat)) (pos : Nat) (s : Scan) (page : Page) :
    Prop :=
  ∃ pieces, Tiles pos body.length pieces ∧ (∀ p ∈ pieces, Fits body code p) ∧
    Holds s (pieces.foldl (Page.emit body) page)

theorem Written.cons {p : Piece} (hp : Fits body code p) (hlt : p.start < p.stop)
    (h : Written body code p.stop s (page.emit body p)) : Written body code p.start s page := by
  obtain ⟨pieces, htiles, hfits, hholds⟩ := h
  refine ⟨p :: pieces, .cons hlt htiles, fun q hq => ?_, hholds⟩
  rcases List.mem_cons.1 hq with rfl | hq
  · exact hp
  · exact hfits q hq

/-- What the rest of the loop does, from a state that is ready: in a comment it looks for the end of
it first. -/
def Runs (body : List Char) (code : List (Nat × Nat)) (n : Nat) : Prop :=
  ∀ (s : Scan) (page : Page), body.length - s.pos ≤ n → Ready body code s → Holds s page →
    (s.hidden = false → Written body code s.pos (loop body n s) page) ∧
    (s.hidden = true → (∃ inside after, body.drop s.pos = inside ++ "-->".toList ++ after ∧
        ¬ "-->".toList <:+: inside ++ "--".toList ∧
        Written body code (s.pos + inside.length + 3) (loop body n s) page) ∨
      ¬ "-->".toList <:+: body.drop s.pos ∧ Holds (loop body n s) page)

variable {n : Nat}

theorem lineEndAt_le (hpos : pos < body.length) : lineEndAt body pos ≤ body.length := by
  obtain ⟨line, after, hline, hend, -⟩ := lineEndAt_spec body pos hpos
  have := congrArg List.length hline.split
  simp only [List.length_drop, List.length_append] at this
  omega

/-- A turn in the text goes on in its line, or to the end of it. -/
theorem Ready.inLine (h : Ready body code s) (hpos : s.pos < body.length) (hlt : s.pos < s'.pos)
    (hle : s'.pos ≤ lineEndAt body s.pos) (hcode : s'.code = Markdown.ahead s)
    (hline : s'.lineEnd = lineEndAt body s.pos) : Ready body code s' := by
  refine h.next hlt.le (hle.trans (lineEndAt_le hpos)) hcode fun hinside => ?_
  rw [hline] at hinside ⊢
  exact (lineEndAt_inside hpos hlt.le hinside).symm

/-- A line of a comment. -/
theorem hidden_turn (hruns : Runs body code n) (hpos : s.pos < body.length)
    (hn : body.length - s.pos ≤ n + 1) (h : Ready body code s) (hholds : Holds s page)
    (hhidden : s.hidden = true) :
    (∃ inside after, body.drop s.pos = inside ++ "-->".toList ++ after ∧
        ¬ "-->".toList <:+: inside ++ "--".toList ∧
        Written body code (s.pos + inside.length + 3) (loop body n (turn body s)) page) ∨
      ¬ "-->".toList <:+: body.drop s.pos ∧ Holds (loop body n (turn body s)) page := by
  obtain ⟨line, after, hline, hend, hlen⟩ := lineEndAt_spec body s.pos hpos
  have hbetween : between body s.pos (lineEndAt body s.pos) = line := by
    rw [hend]
    exact between_drop hline.split
  rw [turn_text h (.inl hhidden), textTurn]
  simp only [hbetween, hhidden, if_true]
  cases hfind : find "-->".toList line with
  | some i =>
    obtain ⟨a, b, rfl, hfirst, rfl⟩ := find_eq_some (by decide) hfind
    have hclose : "-->".toList.length = 3 := rfl
    simp only [List.length_append, hclose] at hlen hend
    refine .inl ⟨a, b ++ after, by rw [hline.split]; simp, hfirst, ?_⟩
    have hnext := (hruns ⟨s.pos + a.length + 3, lineEndAt body s.pos, ahead s, false, s.gap,
      s.visible, s.kept⟩ page (by dsimp only; omega)
      (h.inLine hpos (by dsimp only; omega) (by dsimp only; omega) rfl rfl)
      (hholds.of_eq rfl rfl rfl)).1 rfl
    dsimp only at hnext
    exact hnext
  | none =>
    have hno := (find_eq_none (by decide)).1 hfind
    have hdrop : body.drop (lineEndAt body s.pos) = after := by
      rw [hend, ← List.drop_drop, hline.split, List.drop_left]
    have hnext := (hruns ⟨lineEndAt body s.pos, lineEndAt body s.pos, ahead s, true, s.gap,
      s.visible, s.kept⟩ page (by dsimp only; omega)
      (h.inLine hpos (by dsimp only; omega) le_rfl rfl rfl)
      (hholds.of_eq rfl rfl rfl)).2 rfl
    dsimp only at hnext
    rw [hdrop] at hnext
    rcases hnext with ⟨inside, rest, hafter, hfirst, hwritten⟩ | ⟨hnone, hwritten⟩
    · refine .inl ⟨line ++ inside, rest, ?_, ?_, ?_⟩
      · rw [hline.split, hafter]
        simp
      · rw [List.append_assoc]
        refine hline.not_close hno hfirst fun hnil => ?_
        rw [hnil] at hafter
        simp at hafter
      · rw [List.length_append, ← Nat.add_assoc, ← hend]
        exact hwritten
    · refine .inr ⟨?_, hwritten⟩
      rw [hline.split]
      exact hline.not_close hno hnone id

/-- A turn in the text, where no comment is open. -/
theorem open_turn (hruns : Runs body code n) (hpos : s.pos < body.length)
    (hn : body.length - s.pos ≤ n + 1) (h : Ready body code s) (hholds : Holds s page)
    (hhidden : s.hidden = false) (hcode : ∀ r ∈ code, r.1 ≠ s.pos)
    (hhead : ∀ r, (ahead s).head? = some r → r.1 ≠ s.pos) :
    Written body code s.pos (loop body n (turn body s)) page := by
  obtain ⟨line, after, hline, hend, hlen⟩ := lineEndAt_spec body s.pos hpos
  have hbetween : between body s.pos (lineEndAt body s.pos) = line := by
    rw [hend]
    exact between_drop hline.split
  have himage := hline.opensImage_eq
  rw [turn_text h (.inr hhead), textTurn]
  simp only [hbetween, hhidden, Bool.false_eq_true, if_false]
  split
  · -- A comment begins.
    rename_i hcomment
    rw [List.isPrefixOf_iff_prefix] at hcomment
    obtain ⟨rest, hrest⟩ := (hline.prefix_iff (by decide)).2 hcomment
    have hfour : 4 ≤ line.length := by simpa using hcomment.length_le
    have hdrop : body.drop (s.pos + 4) = rest := by
      rw [← List.drop_drop, ← hrest]
      rfl
    have hnext := (hruns ⟨s.pos + 4, lineEndAt body s.pos, ahead s, true, true, s.visible, s.kept⟩
      { page with gap := true } (by dsimp only; omega)
      (h.inLine hpos (by dsimp only; omega) (by dsimp only; omega) rfl rfl)
      ⟨hholds.visible, rfl, hholds.fresh, hholds.kept⟩).2 rfl
    dsimp only at hnext
    rw [hdrop] at hnext
    rcases hnext with ⟨inside, after', hclosed, hfirst, hwritten⟩ | ⟨hopen, hwritten⟩
    · have hbody : body.drop s.pos = "<!--".toList ++ inside ++ "-->".toList ++ after' := by
        rw [← hrest, hclosed]
        simp
      exact (Written.cons (.hidden hcode hbody hfirst) (by dsimp only; omega) hwritten)
    · exact Written.cons (.unclosed hcode hrest.symm hopen) hpos ⟨[], .nil, by simp, hwritten⟩
  · rename_i hcomment
    rw [List.isPrefixOf_iff_prefix] at hcomment
    split
    · rename_i htag
      cases hfind : find ['>'] line with
      | some i =>
        obtain ⟨tag, b, rfl, hopen, rfl⟩ := find_char_eq_some hfind
        simp only [List.length_append, List.length_cons] at hend
        refine Written.cons (.image hcode (himage.trans htag)
          (by rw [hline.split, List.append_assoc]; rfl) hopen
          (hline.lf_last rfl (List.cons_ne_nil _ _))) (by dsimp only; omega) ?_
        have hnext := (hruns ⟨s.pos + tag.length + 1, lineEndAt body s.pos, ahead s, false, false,
          s.visible ++ "[image]".toList, s.kept⟩ (page.add "[image]".toList) (by dsimp only; omega)
          (h.inLine hpos (by dsimp only; omega) (by dsimp only; omega) rfl rfl)
          (hholds.add rfl rfl rfl)).1 rfl
        dsimp only at hnext
        exact hnext
      | none =>
        refine Written.cons (.cut hcode (himage.trans htag) hline (find_char_eq_none.1 hfind))
          (by dsimp only; omega) ?_
        have hnext := (hruns ⟨lineEndAt body s.pos, lineEndAt body s.pos, ahead s, false, s.gap,
          s.visible, s.kept⟩ page (by dsimp only; omega)
          (h.inLine hpos (by dsimp only; omega) le_rfl rfl rfl) (hholds.of_eq rfl rfl rfl)).1 rfl
        dsimp only at hnext ⊢
        rw [← hend]
        exact hnext
    · rename_i htag
      have hpiece : between body s.pos (s.pos + 1) = line.take 1 := by
        obtain ⟨c, rest, rfl⟩ := List.exists_cons_of_length_pos hlen
        have hone : body.drop s.pos = [c] ++ (rest ++ after) := hline.split
        exact between_drop hone
      have hapart : page.apart line = page.apart (line.take 1) := by
        cases line <;> rfl
      have hplain : ¬ "<!--".toList <+: body.drop s.pos := fun hpre =>
        hcomment ((hline.prefix_iff (by decide)).1 hpre)
      refine Written.cons (.text hcode hplain (by rw [himage]; simpa using htag))
        (Nat.lt_succ_self _) ?_
      have hadd : page.emit body ⟨.text, s.pos, s.pos + 1⟩ =
          page.add (page.apart line ++ line.take 1) := by
        simp only [Page.emit, hpiece, hapart]
      rw [hadd]
      have hseparate : separate s.visible line s.gap ++ line.take 1 =
          s.visible ++ (page.apart line ++ line.take 1) := by
        rw [hholds.visible, hholds.gap, separate_eq, List.append_assoc]
      have hnext := (hruns ⟨s.pos + 1, lineEndAt body s.pos, ahead s, false, false,
        separate s.visible line s.gap ++ line.take 1, s.kept⟩
        (page.add (page.apart line ++ line.take 1)) (by dsimp only; omega)
        (h.inLine hpos (by dsimp only; omega) (by dsimp only; omega) rfl rfl)
        (hholds.add hseparate rfl rfl)).1 rfl
      dsimp only at hnext
      exact hnext

/-- A turn in the code. -/
theorem code_turn (hruns : Runs body code n) (hr : Ranges body code) (hpos : s.pos < body.length)
    (hn : body.length - s.pos ≤ n + 1) (h : Ready body code s) (hholds : Holds s page)
    (hhidden : s.hidden = false) {r : Nat × Nat} (hmem : r ∈ code) (hstart : r.1 = s.pos)
    (hhead : (ahead s).head? = some r) :
    Written body code s.pos (loop body n (turn body s)) page := by
  obtain ⟨hlt, hle⟩ := hr.proper r hmem
  rw [turn_code hhead hhidden hstart, ← hstart]
  refine Written.cons (.code hmem) hlt ?_
  have hline : r.2 < s.lineEnd → s.lineEnd = lineEndAt body r.2 := by
    intro hinside
    have hold := h.lineEnd (by omega)
    rw [hold] at hinside ⊢
    exact (lineEndAt_inside hpos (by omega) hinside).symm
  have hnext := (hruns ⟨r.2, s.lineEnd, ahead s, s.hidden, false,
    separate s.visible (between body r.1 r.2) s.gap ++ between body r.1 r.2,
    s.kept ++ [((separate s.visible (between body r.1 r.2) s.gap).length,
      (separate s.visible (between body r.1 r.2) s.gap).length + (between body r.1 r.2).length)]⟩
    _ (by dsimp only; omega) (h.next (by dsimp only; omega) hle rfl hline)
    (hholds.keep rfl rfl rfl)).1 hhidden
  dsimp only at hnext
  exact hnext

theorem runs (hr : Ranges body code) (n : Nat) : Runs body code n := by
  induction n with
  | zero =>
    intro s page hn h hholds
    have hend : s.pos = body.length := by
      have := h.pos
      omega
    refine ⟨fun _ => ⟨[], hend ▸ .nil, by simp, hholds⟩, fun _ => .inr ⟨?_, hholds⟩⟩
    rw [hend, List.drop_length]
    decide
  | succ n ih =>
    intro s page hn h hholds
    rw [loop]
    split
    · rename_i hpos
      refine ⟨fun hhidden => ?_, hidden_turn ih hpos hn h hholds⟩
      rcases ahead_head hr h with ⟨r, hmem, hstart, hhead⟩ | ⟨hcode, hhead⟩
      · exact code_turn ih hr hpos hn h hholds hhidden hmem hstart hhead
      · exact open_turn ih hpos hn h hholds hhidden hcode hhead
    · rename_i hpos
      have hend : s.pos = body.length := by
        have := h.pos
        omega
      refine ⟨fun _ => ⟨[], hend ▸ .nil, by simp, hholds⟩, fun _ => .inr ⟨?_, hholds⟩⟩
      rw [hend, List.drop_length]
      decide

/-! ## What is shown -/

/-- The pieces of the body, written one after the other. -/
def pageOf (body : List Char) (pieces : List Piece) : Page := pieces.foldl (Page.emit body) .blank

theorem Holds.out (h : Holds s page) :
    (writeKept s.visible s.kept).1 ++ replaceOpeners (s.visible.drop (writeKept s.visible s.kept).2) =
      page.shown.flatMap Part.shown := by
  have hkept := h.kept []
  obtain ⟨x, hx⟩ := h.fresh
  rw [List.append_nil] at hkept
  rw [h.visible, hkept, ← hx, List.length_append, Nat.add_sub_cancel, List.drop_left]
  simp [Page.shown, Part.shown]

theorem exists_cover (hr : Ranges body code) : ∃ pieces, Cover body code pieces ∧
    visibleChars body code = (pageOf body pieces).shown.flatMap Part.shown := by
  obtain ⟨pieces, htiles, hfits, hholds⟩ := (runs hr body.length (.start code) .blank
    (Nat.sub_le _ _) (ready_start body code) (holds_start code)).1 rfl
  exact ⟨pieces, ⟨htiles, hfits⟩, hholds.out⟩

theorem Cover.unique (hr : Ranges body code) {ps qs : List Piece} (hp : Cover body code ps)
    (hq : Cover body code qs) : ps = qs :=
  hp.tiles.unique hr hp.fits hq.tiles hq.fits

/-- **What is shown of a body.** It is read in one way: as its code, its comments, its image tags and
the characters between them. -/
theorem visible_cover (hr : Ranges body code) :
    ∃ pieces, (∀ other, Cover body code other ↔ other = pieces) ∧
      visibleChars body code = (pageOf body pieces).shown.flatMap Part.shown := by
  obtain ⟨pieces, hcover, hvisible⟩ := exists_cover hr
  refine ⟨pieces, fun other => ⟨fun h => h.unique hr hcover, ?_⟩, hvisible⟩
  rintro rfl
  exact hcover

def sampleBody : List Char := "`a`<!--b-->`c`!![d](e)<img f>".toList

def sampleCode : List (Nat × Nat) := [(0, 3), (11, 14)]

theorem sample_ranges : Ranges sampleBody sampleCode := ⟨by decide, by decide⟩

theorem visible_cover_sample :
    visibleChars sampleBody sampleCode = "`a`<!---->`c`![image: d](e)[image]".toList ∧
      ∃ pieces, (∀ other, Cover sampleBody sampleCode other ↔ other = pieces) ∧
        visibleChars sampleBody sampleCode = (pageOf sampleBody pieces).shown.flatMap Part.shown :=
  ⟨by decide, visible_cover sample_ranges⟩

end Markdown
end Proof
end Diffz
