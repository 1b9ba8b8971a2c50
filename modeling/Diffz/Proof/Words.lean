import Diffz.Core.Rich
import Diffz.Proof.Prose

/-!
# Word marking only inserts markers

`wrap` joins spans over short gaps, takes the white space off their ends and puts markers around
what is left. Joining covers what it covered before and gaps (`InGap`); taking white space off loses
none of the other characters (`Trimmed`).
-/

set_option autoImplicit false

namespace Diffz
namespace Proof
namespace Words

open Diffz.Rich
open Diffz.Proof.Inline

/-- The byte `q` is in one of the spans. -/
def Covered (rs : List Span) (q : Nat) : Prop := ∃ r ∈ rs, r.start ≤ q ∧ q < r.stop

/-- The byte `q` is in a gap of at most two bytes and without alphanumeric characters, between two
spans that follow each other. -/
def InGap (alphanumeric : Char → Bool) (text : List Char) (rs : List Span) (q : Nat) : Prop :=
  ∃ before r r' after gap, rs = before ++ r :: r' :: after ∧ r.stop ≤ q ∧ q < r'.start ∧
    r'.start - r.stop ≤ 2 ∧ slice text ⟨r.stop, r'.start⟩ = some gap ∧
    ∀ c ∈ gap, alphanumeric c = false

/-- The byte `q` is of a character other than white space. -/
def Visible (text : List Char) (q : Nat) : Prop :=
  ∃ x c y, text = x ++ c :: y ∧ byteLen x ≤ q ∧ q < byteLen x + c.utf8Size ∧
    isWhitespace c = false

variable {alphanumeric : Char → Bool} {text : List Char} {rs M done rest : List Span}
  {r last : Span} {q : Nat}

theorem covered_cons : Covered (r :: rs) q ↔ (r.start ≤ q ∧ q < r.stop) ∨ Covered rs q :=
  List.exists_mem_cons_iff ..

/-! ## Ordered spans -/

theorem ordered_cons_iff : Ordered text (r :: rs) ↔
    ((∀ r' ∈ rs, r.stop ≤ r'.start) ∧ r.start < r.stop ∧ r.stop ≤ byteLen text ∧
      isCharBoundary text r.start = true ∧ isCharBoundary text r.stop = true) ∧
      Ordered text rs := by
  constructor
  · rintro ⟨hdisjoint, hnonempty, hin, hboundary⟩
    rw [List.pairwise_cons] at hdisjoint
    rw [List.forall_mem_cons] at hnonempty hin hboundary
    exact ⟨⟨hdisjoint.1, hnonempty.1, hin.1, hboundary.1⟩,
      ⟨hdisjoint.2, hnonempty.2, hin.2, hboundary.2⟩⟩
  · rintro ⟨⟨hnext, hlt, hlen, hbounds⟩, hdisjoint, hnonempty, hin, hboundary⟩
    exact ⟨.cons hnext hdisjoint, List.forall_mem_cons.mpr ⟨hlt, hnonempty⟩,
      List.forall_mem_cons.mpr ⟨hlen, hin⟩, List.forall_mem_cons.mpr ⟨hbounds, hboundary⟩⟩

/-- Spans of the beginning of a text. -/
theorem ordered_append (h : Ordered text rs) (u : List Char) : Ordered (text ++ u) rs where
  disjoint := h.disjoint
  nonempty := h.nonempty
  inBounds := fun r hr => by
    rw [byteLen_append]
    exact (h.inBounds r hr).trans (Nat.le_add_right ..)
  boundary := by
    have hmore : ∀ n, isCharBoundary text n = true → isCharBoundary (text ++ u) n = true := by
      intro n hn
      obtain ⟨x, y, rfl, hlen⟩ := isCharBoundary_iff.mp hn
      exact isCharBoundary_iff.mpr ⟨x, y ++ u, List.append_assoc .., hlen⟩
    exact fun r hr => ⟨hmore _ (h.boundary r hr).1, hmore _ (h.boundary r hr).2⟩

/-! ## Joined spans -/

/-- What the first loop does where `last` is joined of the spans up to `r`. -/
theorem mergeFrom_covers (hrs : rs = done ++ r :: rest) (hstop : last.stop = r.stop)
    (hord : Ordered text (last :: rest)) :
    ∃ M, mergeFrom alphanumeric text last rest = some M ∧ Ordered text M ∧
      (∀ m ∈ M, last.start ≤ m.start) ∧
      (∀ q, Covered (last :: rest) q → Covered M q) ∧
      ∀ q, Covered M q → Covered (last :: rest) q ∨ InGap alphanumeric text rs q := by
  induction rest generalizing done r last with
  | nil => exact ⟨[last], rfl, hord, by simp, fun _ => id, fun _ => .inl⟩
  | cons r' rest ih =>
    obtain ⟨⟨hnext, hlt, hlen, hbounds⟩, hrest⟩ := ordered_cons_iff.mp hord
    have hr' := hnext r' (List.mem_cons_self ..)
    have hrs' : rs = (done ++ [r]) ++ r' :: rest := by rw [hrs, List.append_cons]
    -- `last` stays as it is.
    have hpush : ∃ M, (mergeFrom alphanumeric text r' rest).map (last :: ·) = some M ∧
        Ordered text M ∧ (∀ m ∈ M, last.start ≤ m.start) ∧
        (∀ q, Covered (last :: r' :: rest) q → Covered M q) ∧
        ∀ q, Covered M q → Covered (last :: r' :: rest) q ∨ InGap alphanumeric text rs q := by
      obtain ⟨M, hM, hordM, hstart, hcover, hgap⟩ := ih hrs' rfl hrest
      refine ⟨last :: M, by rw [hM]; rfl, ?_, ?_, ?_, ?_⟩
      · refine ordered_cons_iff.mpr ⟨⟨fun m hm => hr'.trans (hstart m hm), hlt, hlen, hbounds⟩, hordM⟩
      · intro m hm
        rcases List.mem_cons.mp hm with rfl | hm
        · exact le_refl _
        · have := hstart m hm
          omega
      · intro q hq
        exact covered_cons.mpr ((covered_cons.mp hq).imp_right (hcover q))
      · intro q hq
        rcases covered_cons.mp hq with hq | hq
        · exact .inl (covered_cons.mpr (.inl hq))
        · exact (hgap q hq).imp_left fun hq => covered_cons.mpr (.inr hq)
    rw [mergeFrom]
    split
    · rename_i hshort
      obtain ⟨hrest', -⟩ := ordered_cons_iff.mp hrest
      obtain ⟨gap, hslice⟩ := exists_slice hbounds.2 hrest'.2.2.2.1 hr'
      rw [hslice, Option.bind_some]
      split
      · exact hpush
      · rename_i halpha
        have hjoined : Ordered text (⟨last.start, r'.stop⟩ :: rest) := by
          refine ordered_cons_iff.mpr ⟨⟨hrest'.1, ?_, hrest'.2.2.1, hbounds.1, hrest'.2.2.2.2⟩,
            (ordered_cons_iff.mp hrest).2⟩
          have := hrest'.2.1
          dsimp only
          omega
        obtain ⟨M, hM, hordM, hstart, hcover, hgap⟩ :=
          @ih (done ++ [r]) r' ⟨last.start, r'.stop⟩ hrs' rfl hjoined
        refine ⟨M, hM, hordM, hstart, fun q hq => hcover q ?_, fun q hq => ?_⟩
        · have := hrest'.2.1
          rcases covered_cons.mp hq with hq | hq
          · exact covered_cons.mpr (.inl (by dsimp only; omega))
          · rcases covered_cons.mp hq with hq | hq
            · exact covered_cons.mpr (.inl (by dsimp only; omega))
            · exact covered_cons.mpr (.inr hq)
        · rcases hgap q hq with hq | hq
          · rcases covered_cons.mp hq with hq | hq
            · -- A byte of the joined span is in one of the two or in the gap.
              dsimp only at hq
              rcases Nat.lt_or_ge q last.stop with hlast | hlast
              · exact .inl (covered_cons.mpr (.inl ⟨hq.1, hlast⟩))
              · rcases Nat.lt_or_ge q r'.start with hin | hin
                · refine .inr ⟨done, r, r', rest, gap, hrs, by omega, hin, by omega, ?_, ?_⟩
                  · rw [← hstop, hslice]
                  · simpa using halpha
                · exact .inl (covered_cons.mpr (.inr (covered_cons.mpr (.inl ⟨hin, hq.2⟩))))
            · exact .inl (covered_cons.mpr (.inr (covered_cons.mpr (.inr hq))))
          · exact .inr hq
    · exact hpush

theorem merge_covers (hord : Ordered text rs) :
    ∃ M, merge alphanumeric text rs = some M ∧ Ordered text M ∧
      (∀ q, Covered rs q → Covered M q) ∧
      ∀ q, Covered M q → Covered rs q ∨ InGap alphanumeric text rs q := by
  cases rs with
  | nil => exact ⟨[], rfl, hord, fun _ => id, fun _ => .inl⟩
  | cons r rest =>
    obtain ⟨M, hM, hordM, -, hcovers⟩ := @mergeFrom_covers _ _ _ [] rest r r rfl rfl hord
    exact ⟨M, hM, hordM, hcovers⟩

/-! ## Trimmed spans -/

theorem exists_visible (l : List Char) : (∀ c ∈ l, isWhitespace c = true) ∨
    ∃ a c t, l = a ++ c :: t ∧ (∀ c ∈ a, isWhitespace c = true) ∧ isWhitespace c = false := by
  induction l with
  | nil => exact .inl nofun
  | cons c l ih =>
    cases hc : isWhitespace c with
    | false => exact .inr ⟨[], c, l, rfl, nofun, hc⟩
    | true =>
      refine ih.imp (fun hall => List.forall_mem_cons.mpr ⟨hc, hall⟩) ?_
      rintro ⟨a, d, t, rfl, ha, hd⟩
      exact ⟨c :: a, d, t, rfl, List.forall_mem_cons.mpr ⟨hc, ha⟩, hd⟩

/-- The part of a text that is left without the white space at its ends. -/
theorem exists_word (piece : List Char) : (∀ c ∈ piece, isWhitespace c = true) ∨
    ∃ a w b, piece = a ++ (w ++ b) ∧ (∀ c ∈ a, isWhitespace c = true) ∧
      (∀ c ∈ b, isWhitespace c = true) ∧ (∃ c t, w = c :: t ∧ isWhitespace c = false) ∧
      ∃ t c, w = t ++ [c] ∧ isWhitespace c = false := by
  refine (exists_visible piece).imp_right ?_
  rintro ⟨a, c, t, rfl, ha, hc⟩
  rcases exists_visible (c :: t).reverse with hall | ⟨b, z, u, hrev, hb, hz⟩
  · have := hall c (by simp)
    rw [hc] at this
    cases this
  · have hsplit : c :: t = (u.reverse ++ [z]) ++ b.reverse := by
      rw [← List.reverse_reverse (c :: t), hrev]
      simp
    refine ⟨a, u.reverse ++ [z], b.reverse, by rw [hsplit], ha, by simpa using hb, ?_,
      u.reverse, z, rfl, hz⟩
    cases hu : u.reverse with
    | nil =>
      rw [hu] at hsplit
      exact ⟨z, [], rfl, hz⟩
    | cons x v =>
      rw [hu] at hsplit
      obtain ⟨rfl, -⟩ := List.cons_eq_cons.mp hsplit
      exact ⟨c, v ++ [z], rfl, hc⟩

/-- How much white space the code finds at the ends. -/
theorem trim_word {a w b : List Char} (ha : ∀ c ∈ a, isWhitespace c = true)
    (hb : ∀ c ∈ b, isWhitespace c = true) (hhead : ∃ c t, w = c :: t ∧ isWhitespace c = false)
    (hlast : ∃ t c, w = t ++ [c] ∧ isWhitespace c = false) :
    (a ++ (w ++ b)).dropWhile isWhitespace = w ++ b ∧
      (a ++ (w ++ b)).rdropWhile isWhitespace = a ++ w := by
  constructor
  · obtain ⟨c, t, rfl, hc⟩ := hhead
    rw [List.dropWhile_append_of_pos ha, List.cons_append, List.dropWhile_cons_of_neg (by simp [hc])]
  · obtain ⟨t, c, rfl, hc⟩ := hlast
    have hb' : ∀ x ∈ b.reverse, isWhitespace x = true := by simpa using hb
    rw [← List.append_assoc, List.rdropWhile, List.reverse_append,
      List.dropWhile_append_of_pos hb', ← List.append_assoc, List.reverse_concat,
      List.dropWhile_cons_of_neg (by simp [hc]), ← List.reverse_concat, List.reverse_reverse]

/-- `rs` is what is left of `M` without the white space at the ends. -/
structure Trimmed (text : List Char) (M rs : List Span) : Prop where
  inside : ∀ q, Covered rs q → Covered M q
  kept : ∀ q, Visible text q → Covered M q → Covered rs q
  ends : ∀ r ∈ rs, ∃ w, slice text r = some w ∧ (∃ c t, w = c :: t ∧ isWhitespace c = false) ∧
    ∃ t c, w = t ++ [c] ∧ isWhitespace c = false

/-- The byte of a character that is not white space is in no white space. -/
theorem Visible.not_mem {x s y : List Char} (hq : Visible text q) (htext : text = x ++ (s ++ y))
    (hs : ∀ c ∈ s, isWhitespace c = true) : ¬ (byteLen x ≤ q ∧ q < byteLen x + byteLen s) := by
  rintro ⟨hle, hlt⟩
  obtain ⟨x', c, y', hsame, hle', hlt', hc⟩ := hq
  have hnot : c ∉ s := fun hmem => by
    rw [hs c hmem] at hc
    cases hc
  rw [htext] at hsame
  rcases List.append_eq_append_iff.mp hsame with ⟨z, hx', hrest⟩ | ⟨z, hx, hrest⟩
  · -- The character begins in `s` or after it.
    rcases List.append_eq_append_iff.mp hrest with ⟨v, hz, -⟩ | ⟨v, hs', htail⟩
    · rw [hx', hz] at hle'
      simp only [byteLen_append] at hle'
      omega
    · cases v with
      | nil =>
        rw [hx', ← List.append_nil z, ← hs'] at hle'
        simp only [byteLen_append] at hle'
        omega
      | cons d v =>
        obtain ⟨rfl, -⟩ := List.cons_eq_cons.mp htail
        exact hnot (by simp [hs'])
  · -- It begins in `x`, so it ends there.
    cases z with
    | nil =>
      cases s with
      | nil => exact absurd hlt (by simpa using hle)
      | cons d s =>
        obtain ⟨rfl, -⟩ := List.cons_eq_cons.mp hrest
        exact hnot (List.mem_cons_self ..)
    | cons d z =>
      obtain ⟨rfl, -⟩ := List.cons_eq_cons.mp hrest
      rw [hx, byteLen_append, byteLen_cons] at hle
      omega

/-- A span of white space is dropped. -/
theorem Trimmed.drop {m : Span} {x s y : List Char} (h : Trimmed text M rs)
    (htext : text = x ++ (s ++ y)) (hstart : byteLen x = m.start)
    (hstop : byteLen x + byteLen s = m.stop) (hs : ∀ c ∈ s, isWhitespace c = true) :
    Trimmed text (m :: M) rs where
  inside := fun q hq => covered_cons.mpr (.inr (h.inside q hq))
  kept := by
    intro q hq hcovered
    rcases covered_cons.mp hcovered with hm | hcovered
    · exact absurd (by omega) (hq.not_mem htext hs)
    · exact h.kept q hq hcovered
  ends := h.ends

/-- Else a word is left of it. -/
theorem Trimmed.word {m : Span} {x a w b y : List Char} (h : Trimmed text M rs)
    (htext : text = x ++ (a ++ (w ++ (b ++ y)))) (hstart : byteLen x = m.start)
    (hstop : byteLen x + (byteLen a + (byteLen w + byteLen b)) = m.stop)
    (ha : ∀ c ∈ a, isWhitespace c = true) (hb : ∀ c ∈ b, isWhitespace c = true)
    (hhead : ∃ c t, w = c :: t ∧ isWhitespace c = false)
    (hlast : ∃ t c, w = t ++ [c] ∧ isWhitespace c = false) :
    Trimmed text (m :: M) (⟨m.start + byteLen a, m.start + byteLen a + byteLen w⟩ :: rs) where
  inside := by
    intro q hq
    refine covered_cons.mpr ((covered_cons.mp hq).imp ?_ (h.inside q))
    dsimp only
    omega
  kept := by
    intro q hq hcovered
    refine covered_cons.mpr ((covered_cons.mp hcovered).imp ?_ (h.kept q hq))
    rintro ⟨hle, hlt⟩
    have hnota := hq.not_mem htext ha
    have hnotb := hq.not_mem (x := x ++ (a ++ w)) (s := b) (y := y) (by simp [htext]) hb
    simp only [byteLen_append] at hnotb
    dsimp only
    omega
  ends := by
    refine List.forall_mem_cons.mpr ⟨⟨w, ?_, hhead, hlast⟩, h.ends⟩
    refine slice_eq_some_iff.mpr ⟨x ++ a, b ++ y, by simp [htext], ?_, ?_⟩
    · rw [byteLen_append, hstart]
    · rw [byteLen_append, hstart]

/-- The second loop of `wrap` puts the markers around what is left of each span. -/
theorem wrapFrom_trimmed (marker : String × String) {x u : List Char} (htext : text = x ++ u)
    (hord : Ordered text M) (hafter : ∀ m ∈ M, byteLen x ≤ m.start) :
    ∃ out rs, wrapFrom text marker (byteLen x) M = some out ∧
      Wrapped (marker.1.toList, marker.2.toList) (byteLen x) u rs out ∧ Trimmed text M rs := by
  induction M generalizing x u with
  | nil =>
    refine ⟨u, [], ?_, .none _ _, ⟨fun _ => id, fun _ _ => id, nofun⟩⟩
    exact slice_eq_some_iff.mpr ⟨x, [], by simp [htext], rfl, by simp [htext]⟩
  | cons m M ih =>
    obtain ⟨⟨hnext, hlt, -, hboundary⟩, hrest⟩ := ordered_cons_iff.mp hord
    obtain ⟨piece, hpiece⟩ := exists_slice hboundary.1 hboundary.2 hlt.le
    obtain ⟨X, y, hX, hstart, hstop⟩ := slice_eq_some_iff.mp hpiece
    dsimp only at hstart hstop
    -- The span begins after what is copied.
    obtain ⟨g, rfl⟩ : ∃ g, X = x ++ g := by
      have hle := hafter m (List.mem_cons_self ..)
      have hsame : x ++ u = X ++ (piece ++ y) := by rw [← htext, hX, List.append_assoc]
      rcases List.append_eq_append_iff.mp hsame with ⟨g, hg, -⟩ | ⟨g, rfl, -⟩
      · exact ⟨g, hg⟩
      · cases g with
        | nil => exact ⟨[], by simp⟩
        | cons c g =>
          have := c.utf8Size_pos
          simp only [byteLen_append, byteLen_cons] at hle hstart
          omega
    obtain rfl : u = g ++ (piece ++ y) := by
      rw [htext] at hX
      simpa using hX
    have hslice : slice text m = some piece := hpiece
    rcases exists_word piece with hall | ⟨a, w, b, rfl, ha, hb, hhead, hlast⟩
    · obtain ⟨out, rs, hout, hwrapped, htrimmed⟩ :=
        ih htext hrest fun m' hm' => hafter m' (.tail _ hm')
      refine ⟨out, rs, ?_, hwrapped, ?_⟩
      · rw [wrapFrom, hslice, Option.bind_some, List.dropWhile_eq_nil_iff.mpr hall,
          List.rdropWhile_eq_nil_iff.mpr hall, byteLen_nil, Nat.sub_zero, if_pos (by omega), hout]
      · exact htrimmed.drop (by rw [htext, List.append_assoc]) hstart hstop hall
    · obtain ⟨hdrop, hrdrop⟩ := trim_word ha hb hhead hlast
      simp only [byteLen_append] at hstart hstop
      have hlen : byteLen (x ++ (g ++ (a ++ w))) = m.stop - byteLen b := by
        simp only [byteLen_append]
        omega
      have hne : w ≠ [] := by
        obtain ⟨c, t, rfl, -⟩ := hhead
        simp
      have hpos := byteLen_pos hne
      obtain ⟨out, rs, hout, hwrapped, htrimmed⟩ :=
        @ih (x ++ (g ++ (a ++ w))) (b ++ y) (by simp [htext]) hrest (by
          intro m' hm'
          have := hnext m' hm'
          omega)
      have hbefore : slice text ⟨byteLen x, m.start + byteLen a⟩ = some (g ++ a) :=
        slice_eq_some_iff.mpr ⟨x, w ++ (b ++ y), by simp [htext], rfl, by
          simp only [byteLen_append]
          omega⟩
      have hword : slice text ⟨m.start + byteLen a, m.stop - byteLen b⟩ = some w :=
        slice_eq_some_iff.mpr ⟨x ++ (g ++ a), b ++ y, by simp [htext], by
          simp only [byteLen_append]
          omega, by
          simp only [byteLen_append]
          omega⟩
      refine ⟨(g ++ a) ++ (marker.1.toList ++ (w ++ (marker.2.toList ++ out))),
        ⟨m.start + byteLen a, m.start + byteLen a + byteLen w⟩ :: rs, ?_, ?_, ?_⟩
      · have hlead : byteLen a + (byteLen w + byteLen b) - (byteLen w + byteLen b) = byteLen a := by
          omega
        have htrail : byteLen a + (byteLen w + byteLen b) - (byteLen a + byteLen w) = byteLen b := by
          omega
        rw [hlen] at hout
        simp only [wrapFrom, hslice, Option.bind_some, hdrop, hrdrop, byteLen_append, hlead, htrail,
          hbefore, hword, hout, Option.map_some]
        rw [if_neg (by omega)]
      · have hmark : Wrapped (marker.1.toList, marker.2.toList) (byteLen x + byteLen (g ++ a))
            (w ++ (b ++ y)) (⟨byteLen x + byteLen (g ++ a),
              byteLen x + byteLen (g ++ a) + byteLen w⟩ :: rs)
            (marker.1.toList ++ (w ++ (marker.2.toList ++ out))) := by
          refine .wrap hne ?_
          simpa only [byteLen_append, Nat.add_assoc] using hwrapped
        have hall := hmark.before (g ++ a)
        have hm : byteLen x + byteLen (g ++ a) = m.start + byteLen a := by
          simp only [byteLen_append]
          omega
        rw [hm] at hall
        simpa only [List.append_assoc] using hall
      · refine htrimmed.word (x := x ++ g) (y := y) (by simp [htext]) ?_ ?_ ha hb hhead hlast
        · rw [byteLen_append, hstart]
        · rw [byteLen_append]
          omega

/-! ## Marked words -/

/-- `out` is the text with markers around the spans `rs`, where `ranges` are to be marked. -/
structure Inserted (alphanumeric : Char → Bool) (text : String) (ranges rs : List Span)
    (marker : String × String) (out : String) : Prop where
  wrapped : Wrapped (marker.1.toList, marker.2.toList) 0 text.toList rs out.toList
  ordered : Ordered text.toList rs
  /-- A span begins and ends with a character that is not white space. -/
  ends : ∀ r ∈ rs, ∃ w, slice text.toList r = some w ∧
    (∃ c t, w = c :: t ∧ isWhitespace c = false) ∧ ∃ t c, w = t ++ [c] ∧ isWhitespace c = false
  kept : ∀ q, Visible text.toList q → Covered ranges q → Covered rs q
  gaps : ∀ q, Covered rs q → Covered ranges q ∨ InGap alphanumeric text.toList ranges q

theorem wrap_inserts (alphanumeric : Char → Bool) {text : String} {ranges : List Span}
    (marker : String × String) (hord : Ordered text.toList ranges) :
    ∃ out rs, wrap alphanumeric text ranges marker = some out ∧
      Inserted alphanumeric text ranges rs marker out := by
  obtain ⟨M, hM, hordM, hcover, hgap⟩ := @merge_covers alphanumeric _ _ hord
  obtain ⟨out, rs, hout, hwrapped, htrimmed⟩ :=
    @wrapFrom_trimmed text.toList M marker [] text.toList rfl hordM fun _ _ => Nat.zero_le _
  obtain ⟨k, hmarks⟩ := hwrapped.marks
  refine ⟨String.ofList out, rs, ?_, ?_, .of_marks hmarks, htrimmed.ends, ?_, ?_⟩
  · rw [byteLen_nil] at hout
    rw [wrap, hM, Option.bind_some, hout, Option.map_some]
  · rw [String.toList_ofList]
    exact hwrapped
  · exact fun q hq hr => htrimmed.kept q hq (hcover q hr)
  · exact fun q hq => hgap q (htrimmed.inside q hq)

/-- The spans of `word_diff_with` are spans of the texts themselves. -/
theorem wordDiffWith_ordered (alphanumeric : Char → Bool) (noisy : Nat → Nat → Bool)
    (old new : String) : ∃ ra rb, Inline.wordDiffWith alphanumeric noisy old new (64 * 1024) 3000 =
      some (ra, rb) ∧ Ordered old.toList ra ∧ Ordered new.toList rb := by
  have htrim : ∀ (s : String) (rs : List Span), Ordered (trimEnd s).toList rs →
      Ordered s.toList rs := by
    intro s rs h
    obtain ⟨t, ht⟩ := List.rdropWhile_prefix isWhitespace (l := s.toList)
    rw [trimEnd, String.toList_ofList] at h
    rw [← ht]
    exact ordered_append h t
  by_cases hsize : byteLen old.toList > 64 * 1024 ∨ byteLen new.toList > 64 * 1024
  · refine ⟨[], [], ?_, .of_marks (.none 0 _), .of_marks (.none 0 _)⟩
    rw [Inline.wordDiffWith, if_pos hsize]
  · have hold : byteLen old.toList ≤ 64 * 1024 := by omega
    have hnew : byteLen new.toList ≤ 64 * 1024 := by omega
    obtain ⟨ra, rb, hdiff, hra, hrb, -⟩ :=
      wordDiffWith_sound alphanumeric noisy 3000 hold hnew (by decide)
    exact ⟨ra, rb, hdiff, htrim old ra hra, htrim new rb hrb⟩

/-- **Word marking only inserts markers.** Where the old text begins with a fence both texts stay as
they are. Else each gets markers around what `word_diff_with` marks of it, with short gaps joined and
white space left out. -/
theorem markWords_inserts (alphanumeric : Char → Bool) (noisy : Nat → Nat → Bool)
    (old new : String) (removed added : String × String) :
    ∃ o n, markWords alphanumeric noisy old new removed added = some (o, n) ∧
      (fenced old = true → o = old ∧ n = new) ∧
      (fenced old = false → ∃ ra rb,
        Inline.wordDiffWith alphanumeric noisy old new (64 * 1024) 3000 = some (ra, rb) ∧
          (∃ rs, Inserted alphanumeric old ra rs removed o) ∧
          ∃ rs, Inserted alphanumeric new rb rs added n) := by
  unfold markWords
  cases fenced old with
  | true => exact ⟨old, new, rfl, fun _ => ⟨rfl, rfl⟩, nofun⟩
  | false =>
    obtain ⟨ra, rb, hdiff, hra, hrb⟩ := wordDiffWith_ordered alphanumeric noisy old new
    obtain ⟨o, rs, ho, hold⟩ := wrap_inserts alphanumeric removed hra
    obtain ⟨n, rt, hn, hnew⟩ := wrap_inserts alphanumeric added hrb
    refine ⟨o, n, ?_, nofun, fun _ => ⟨ra, rb, hdiff, ⟨rs, hold⟩, rt, hnew⟩⟩
    simp only [hdiff, Option.bind_some, ho, hn, Option.map_some, Bool.false_eq_true, if_false]

end Words
end Proof
end Diffz
