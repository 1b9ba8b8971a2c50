import Diffz.Core.Syntax
import Diffz.Lib.Lines

/-!
# Highlight spans land on the right bytes

Each range that is highlighted is pushed as its parts in the lines, `lit`, so the spans of a line
are the parts in it of all the ranges, in their order. What they cover and how they lie follows from
how a range is clipped to lines.
-/

set_option autoImplicit false

namespace Diffz.Proof.Syntax

open Diffz.Syntax

variable {ε : Type}

/-- The `Source` ranges of the events are in order, none overlaps the next one, and all are inside
of the text. -/
def InOrder (len : Nat) : Nat → List (Except ε HighlightEvent) → Prop
  | _, [] => True
  | last, .ok (.source start stop) :: events =>
    last ≤ start ∧ start ≤ stop ∧ stop ≤ len ∧ InOrder len stop events
  | last, _ :: events => InOrder len last events

/-- The event is no error and highlights nothing that is not recognized. -/
def readable : Except ε HighlightEvent → Bool
  | .ok (.highlightStart highlight) => (tokenFor highlight).isSome
  | .ok _ => true
  | .error _ => false

/-- The `Source` ranges that are highlighted, each with the innermost highlight around it. -/
def highlighted : List (Except ε HighlightEvent) → List Token → List Diffz.Syntax.Span
  | .ok (.highlightStart highlight) :: events, stack =>
    highlighted events ((tokenFor highlight).toList ++ stack)
  | .ok .highlightEnd :: events, stack => highlighted events stack.tail
  | .ok (.source start stop) :: events, stack =>
    (stack.head?.toList.map fun token => ⟨⟨start, stop⟩, token⟩) ++ highlighted events stack
  | .error _ :: events, stack => highlighted events stack
  | [], _ => []

/-- The part of a highlighted range in a line. -/
def lit (h : Diffz.Syntax.Span) (b : Nat × Nat) : List Diffz.Syntax.Span :=
  (clip h.bytes b).toList.map fun r => ⟨r, h.token⟩

variable {text : Bytes} {bounds : List (Nat × Nat)} {start stop : Nat} {token : Token}
  {f : Nat × Nat → List Diffz.Syntax.Span}

/-! ## Lines -/

theorem newlinesFrom_append {line : Bytes} (h : 10 ∉ line) (p : Nat) (rest : Bytes) :
    newlinesFrom p (line ++ rest) = newlinesFrom (p + line.length) rest := by
  have hnone : ((line.zipIdx p).filter fun bi => bi.1 == 10) = [] := by
    refine List.filter_eq_nil_iff.mpr fun bi hbi hlf => h ?_
    rw [← beq_iff_eq.mp hlf]
    exact List.fst_mem_of_mem_zipIdx hbi
  rw [newlinesFrom, List.zipIdx_append, List.filter_append, hnone, List.nil_append]
  rfl

theorem newlinesFrom_lf (p : Nat) (rest : Bytes) :
    newlinesFrom p (10 :: rest) = p :: newlinesFrom (p + 1) rest := rfl

/-- Where the line ends that is before an LF. -/
theorem lineEndOf_eq (done line text : Bytes) :
    lineEndOf (done ++ (line ++ 10 :: text)) done.length (done.length + line.length) =
      some (if line.getLast? = some 13 then done.length + line.length - 1
        else done.length + line.length) := by
  unfold lineEndOf
  rcases List.eq_nil_or_concat line with rfl | ⟨line, b, rfl⟩
  · simp
  · have hlast : (done ++ (line ++ [b] ++ 10 :: text))[done.length + line.length]? = some b := by
      rw [List.getElem?_append_right (Nat.le_add_right ..), Nat.add_sub_cancel_left,
        List.append_assoc, List.getElem?_append_right (le_refl _), Nat.sub_self]
      rfl
    simp only [List.concat_eq_append, List.length_append, List.length_singleton]
    rw [if_pos (by omega), show done.length + (line.length + 1) - 1 = done.length + line.length by
      omega, hlast]
    simp

/-- The bounds are those of the lines. -/
theorem exists_boundsFrom (done rest : Bytes) :
    ∃ bounds, boundsFrom (done ++ rest) done.length (newlinesFrom done.length rest) = some bounds ∧
      Lines done.length rest bounds := by
  induction h : rest.length using Nat.strong_induction_on generalizing done rest with
  | _ n ih =>
    by_cases hmem : 10 ∈ rest
    · obtain ⟨line, text, rfl, hline⟩ := List.eq_append_cons_of_mem hmem
      have hlt : text.length < n := by
        rw [← h, List.length_append, List.length_cons]
        omega
      obtain ⟨bounds, hbounds, hlines⟩ := ih text.length hlt (done ++ line ++ [10]) text rfl
      have hlen : (done ++ line ++ [10]).length = done.length + line.length + 1 := by
        simp only [List.length_append, List.length_singleton]
      have htext : done ++ line ++ [10] ++ text = done ++ (line ++ 10 :: text) := by simp
      rw [hlen] at hlines
      rw [hlen, htext] at hbounds
      rw [newlinesFrom_append hline, newlinesFrom_lf]
      simp only [boundsFrom, lineEndOf_eq, hbounds, Option.bind_some, Option.map_some]
      refine ⟨_, rfl, ?_⟩
      by_cases hcr : line.getLast? = some 13
      · obtain ⟨line, rfl⟩ := List.getLast?_eq_some_iff.mp hcr
        rw [if_pos hcr, List.length_append, List.length_singleton, List.append_assoc]
        refine .crlf (fun hmem => hline (List.mem_append_left _ hmem)) ?_
        rw [List.length_append, List.length_singleton] at hlines
        exact hlines
      · rw [if_neg hcr]
        exact .lf hline hcr hlines
    · have hnone : newlinesFrom done.length rest = [] := by
        have := newlinesFrom_append hmem done.length []
        rwa [List.append_nil] at this
      refine ⟨[(done.length, (done ++ rest).length)], by rw [hnone]; rfl, ?_⟩
      rw [List.length_append]
      exact .last hmem

/-! ## Pushing a range -/

theorem lit_eq_nil {h : Diffz.Syntax.Span} {b : Nat × Nat}
    (hb : h.bytes.stop ≤ b.1 ∨ b.2 ≤ h.bytes.start ∨ h.bytes.stop ≤ h.bytes.start) :
    lit h b = [] := by
  rw [lit, clip_eq_none_of_le hb]
  rfl

theorem pushAt_append (before after : List (List Diffz.Syntax.Span))
    (line : List Diffz.Syntax.Span) (s : Diffz.Syntax.Span) :
    pushAt (before ++ line :: after) before.length s = some (before ++ (line ++ [s]) :: after) := by
  have hlt : before.length < (before ++ line :: after).length := by simp
  rw [pushAt, if_pos hlt, List.modify_eq_take_cons_drop hlt]
  simp

/-- What is pushed in a line is the part of the range in it. -/
theorem pushClipped_eq (before after : List (List Diffz.Syntax.Span))
    (line : List Diffz.Syntax.Span) {b : Nat × Nat} (hstart : b.1 ≤ start) :
    pushClipped (before ++ line :: after) before.length b.1 start (min stop b.2) token =
      some (before ++ (line ++ lit ⟨⟨start, stop⟩, token⟩ b) :: after) := by
  unfold pushClipped
  by_cases hlt : start < min stop b.2
  · have hmax : max start b.1 = start := by omega
    rw [if_pos hlt, if_pos hstart, pushAt_append, lit, clip]
    simp only [hmax, if_pos hlt, Option.toList_some, List.map_cons, List.map_nil]
  · rw [if_neg hlt, lit_eq_nil (by dsimp only; omega), List.append_nil]

/-- One round of the loop, in the line `b`. -/
theorem pushLoop_step {before after : List (List Diffz.Syntax.Span)} {line : List Diffz.Syntax.Span}
    {done rest : List (Nat × Nat)} {b : Nat × Nat} (hlen : before.length = done.length)
    (hstart : b.1 ≤ start) (hlt : start < stop) :
    pushLoop (done ++ b :: rest) stop token start done.length (before ++ line :: after) =
      if stop ≤ b.2 then some (before ++ (line ++ lit ⟨⟨start, stop⟩, token⟩ b) :: after)
      else rest.head?.bind fun next =>
        pushLoop (done ++ b :: rest) stop token next.1 (done.length + 1)
          (before ++ (line ++ lit ⟨⟨start, stop⟩, token⟩ b) :: after) := by
  have hmem : done.length < (done ++ b :: rest).length := by simp
  have hat : (done ++ b :: rest)[done.length] = b := by simp
  have hnext : (done ++ b :: rest)[done.length + 1]? = rest.head? := by
    rw [List.getElem?_append_right (Nat.le_add_right ..), Nat.add_sub_cancel_left,
      List.getElem?_cons_succ, List.head?_eq_getElem?]
  rw [pushLoop, if_pos hlt, dif_pos hmem, hat, ← hlen, pushClipped_eq _ _ _ hstart, hlen, hnext]
  have hmin : min stop b.2 = stop ↔ stop ≤ b.2 := by omega
  simp only [Option.bind_some, hmin]

/-- A range has no part in a line that it ends before. -/
theorem map_lit_of_stop_le (f : Nat × Nat → List Diffz.Syntax.Span) {l : List (Nat × Nat)}
    (hl : ∀ x ∈ l, stop ≤ x.1 ∨ stop ≤ start) :
    (l.map fun x => f x ++ lit ⟨⟨start, stop⟩, token⟩ x) = l.map f := by
  refine List.map_congr_left fun x hx => ?_
  have := hl x hx
  rw [lit_eq_nil (by dsimp only; omega), List.append_nil]

/-- The loop pushes the part of the range in each line from that on where it begins. -/
theorem pushLoop_eq (f : Nat × Nat → List Diffz.Syntax.Span) {before : List (List Diffz.Syntax.Span)}
    {done rest : List (Nat × Nat)} {b : Nat × Nat} (hlen : before.length = done.length)
    (hord : (b :: rest).Pairwise fun x y => x.2 < y.1) (hin : ∀ x ∈ rest, x.1 ≤ x.2)
    (hstart : b.1 ≤ start) (hnext : ∀ x ∈ rest, start ≤ x.1)
    (hlast : ∃ z, (b :: rest).getLast? = some z ∧ stop ≤ z.2) :
    pushLoop (done ++ b :: rest) stop token start done.length (before ++ (b :: rest).map f) =
      some (before ++ (b :: rest).map fun x => f x ++ lit ⟨⟨start, stop⟩, token⟩ x) := by
  induction rest generalizing before done b start with
  | nil =>
    obtain ⟨z, hz, hstop⟩ := hlast
    obtain rfl : b = z := Option.some.inj hz
    by_cases hlt : start < stop
    · rw [List.map_singleton, pushLoop_step hlen hstart hlt, if_pos hstop]
      rfl
    · rw [pushLoop, if_neg hlt, map_lit_of_stop_le f fun x _ => by omega]
  | cons b' rest ih =>
    obtain ⟨hb, hord⟩ := List.pairwise_cons.mp hord
    obtain ⟨hb', -⟩ := List.pairwise_cons.mp hord
    by_cases hlt : start < stop
    · rw [List.map_cons, pushLoop_step hlen hstart hlt,
        List.map_cons (f := fun x => f x ++ lit ⟨⟨start, stop⟩, token⟩ x)]
      by_cases hstop : stop ≤ b.2
      · -- The range ends in this line.
        have hpast : ∀ x ∈ b' :: rest, stop ≤ x.1 ∨ stop ≤ start := by
          intro x hx
          have := hb x hx
          omega
        rw [if_pos hstop, map_lit_of_stop_le f hpast]
      · have hle := hin b' (List.mem_cons_self ..)
        have hafter : ∀ x ∈ rest, b'.1 ≤ x.1 := by
          intro x hx
          have := hb' x hx
          omega
        have hfrom : ∀ x ∈ b' :: rest,
            lit ⟨⟨start, stop⟩, token⟩ x = lit ⟨⟨b'.1, stop⟩, token⟩ x := by
          intro x hx
          have hx' : max start x.1 = max b'.1 x.1 := by
            have hle' := hnext x hx
            rcases List.mem_cons.mp hx with rfl | hx
            · omega
            · have := hafter x hx
              omega
          simp only [lit, clip, hx']
        have hrest := @ih b'.1 (before ++ [f b ++ lit ⟨⟨start, stop⟩, token⟩ b]) (done ++ [b]) b'
          (by simp [hlen]) hord (fun x hx => hin x (.tail _ hx)) (le_refl _) hafter
          (by simpa using hlast)
        rw [List.length_append, List.length_singleton] at hrest
        rw [if_neg hstop, List.head?_cons, Option.bind_some, List.append_cons done b,
          List.append_cons before, hrest, ← List.append_cons]
        congr 3
        exact List.map_congr_left fun x hx => by rw [hfrom x hx]
    · rw [pushLoop, if_neg hlt, map_lit_of_stop_le f fun x _ => by omega]

/-- The lines up to that in which the text at `start` is, and the lines after it. -/
theorem exists_split (hlines : Lines 0 text bounds) (start : Nat) :
    ∃ done b rest, bounds = done ++ b :: rest ∧ b.1 ≤ start ∧ (∀ x ∈ rest, start ≤ x.1) ∧
      partitionPoint (fun b => decide (b.1 ≤ start)) bounds = done.length + 1 := by
  have hne : bounds.takeWhile (fun b => decide (b.1 ≤ start)) ≠ [] := by
    cases bounds with
    | nil => exact absurd rfl hlines.ne_nil
    | cons b bounds =>
      have hb : b.1 = 0 := Option.some.inj hlines.head_start
      simp [hb]
  have hsplit := List.takeWhile_append_dropWhile (p := fun b => decide (b.1 ≤ start)) (l := bounds)
  rcases List.eq_nil_or_concat (bounds.takeWhile fun b => decide (b.1 ≤ start)) with
    hnil | ⟨done, b, hdone⟩
  · exact absurd hnil hne
  · have hb : b ∈ bounds.takeWhile fun b => decide (b.1 ≤ start) := by
      rw [hdone]
      simp
    rw [hdone, List.concat_eq_append, List.append_assoc, List.singleton_append] at hsplit
    have hstart : b.1 ≤ start := by simpa using List.mem_takeWhile_imp hb
    refine ⟨done, b, _, hsplit.symm, hstart, ?_, ?_⟩
    · intro x hx
      have hord := hlines.ordered
      cases hrest : bounds.dropWhile fun b => decide (b.1 ≤ start) with
      | nil =>
        rw [hrest] at hx
        cases hx
      | cons y rest =>
        have hy : ¬ y.1 ≤ start := by
          have hhead := @List.head_dropWhile_not _ (fun b => decide (b.1 ≤ start)) bounds
            (by simp [hrest])
          simpa [hrest] using hhead
        rw [hrest] at hx
        rw [← hsplit, hrest] at hord
        have hafter := (List.pairwise_append.mp hord).2.1
        rcases List.mem_cons.mp hx with rfl | hx
        · omega
        · have hlt := (List.pairwise_cons.mp (List.pairwise_cons.mp hafter).2).1 x hx
          have hyin := (hlines.inside y (by rw [← hsplit, hrest]; simp)).2.1
          omega
    · rw [partitionPoint, hdone]
      simp

/-- **One range.** Each line gets the part of the range in it. -/
theorem pushSpan_eq (hlines : Lines 0 text bounds) (hlen : stop ≤ text.length)
    (f : Nat × Nat → List Diffz.Syntax.Span) :
    pushSpan (bounds.map f) bounds start stop token =
      some (bounds.map fun x => f x ++ lit ⟨⟨start, stop⟩, token⟩ x) := by
  obtain ⟨done, b, rest, rfl, hstart, hnext, hpoint⟩ := exists_split hlines start
  have hord := List.pairwise_append.mp hlines.ordered
  have hlast : ∃ z, (b :: rest).getLast? = some z ∧ stop ≤ z.2 := by
    obtain ⟨z, hz, hstop⟩ := hlines.last_stop
    rw [List.getLast?_append_of_ne_nil _ (by simp)] at hz
    exact ⟨z, hz, by omega⟩
  have hbefore : (done.map fun x => f x ++ lit ⟨⟨start, stop⟩, token⟩ x) = done.map f := by
    refine List.map_congr_left fun x hx => ?_
    have := hord.2.2 x hx b (List.mem_cons_self ..)
    rw [lit_eq_nil (by dsimp only; omega), List.append_nil]
  rw [pushSpan, hpoint, List.map_append, List.map_append, hbefore]
  refine pushLoop_eq f (by simp) hord.2.1 (fun x hx => ?_) hstart hnext hlast
  exact (hlines.inside x (by simp [hx])).2.1

/-- **The events.** Each line gets its part of each range that is highlighted. -/
theorem eventLoop_eq (hlines : Lines 0 text bounds) {events : List (Except ε HighlightEvent)}
    {last : Nat} (hevents : InOrder text.length last events) (stack : List Token)
    (f : Nat × Nat → List Diffz.Syntax.Span) :
    eventLoop bounds events stack (bounds.map f) =
      some (if events.all readable then
        some (bounds.map fun b => f b ++ (highlighted events stack).flatMap (lit · b))
      else none) := by
  induction events generalizing last stack f with
  | nil => simp [eventLoop, highlighted]
  | cons e events ih =>
    rcases e with _ | ⟨highlight⟩ | _ | ⟨start, stop⟩
    · rfl
    · rw [eventLoop]
      cases htoken : tokenFor highlight with
      | none => simp [readable, htoken]
      | some token =>
        dsimp only
        rw [ih hevents]
        simp [readable, highlighted, htoken]
    · rw [eventLoop, ih hevents]
      rfl
    · obtain ⟨-, -, hlen, hevents⟩ := hevents
      rw [eventLoop]
      cases hstack : stack.head? with
      | none =>
        dsimp only
        rw [ih hevents]
        simp [readable, highlighted, hstack]
      | some token =>
        simp only [pushSpan_eq hlines hlen, Option.bind_eq_bind, Option.bind_some]
        rw [ih hevents]
        simp [readable, highlighted, hstack]

/-! ## The spans of a line -/

theorem mem_lit {h s : Diffz.Syntax.Span} {b : Nat × Nat} :
    s ∈ lit h b ↔ clip h.bytes b = some s.bytes ∧ h.token = s.token := by
  simp only [lit, List.mem_map, Option.mem_toList]
  constructor
  · rintro ⟨r, hr, rfl⟩
    exact ⟨hr, rfl⟩
  · rintro ⟨hr, htoken⟩
    exact ⟨s.bytes, hr, by rw [htoken]⟩

/-- The ranges that are highlighted are in order too. -/
theorem highlighted_ordered {len : Nat} {events : List (Except ε HighlightEvent)} {last : Nat}
    (hevents : InOrder len last events) (stack : List Token) :
    (∀ h ∈ highlighted events stack, last ≤ h.bytes.start ∧ h.bytes.stop ≤ len) ∧
      (highlighted events stack).Pairwise fun h h' => h.bytes.stop ≤ h'.bytes.start := by
  induction events generalizing last stack with
  | nil => exact ⟨nofun, .nil⟩
  | cons e events ih =>
    rcases e with _ | ⟨highlight⟩ | _ | ⟨start, stop⟩
    · exact ih hevents stack
    · exact ih hevents _
    · exact ih hevents _
    · obtain ⟨hstart, hle, hlen, hevents⟩ := hevents
      obtain ⟨hafter, hord⟩ := ih hevents stack
      rw [highlighted]
      cases stack.head? with
      | none =>
        refine ⟨fun h hh => ?_, hord⟩
        have := hafter h hh
        omega
      | some token =>
        refine ⟨fun h hh => ?_, .cons (fun h hh => (hafter h hh).1) hord⟩
        rcases List.mem_cons.mp hh with rfl | hh
        · exact ⟨hstart, hlen⟩
        · have := hafter h hh
          omega

/-- The spans of the lines of a text are its ranges, less the terminators. -/
structure Lands (text : Bytes) (ranges : List Diffz.Syntax.Span) (bounds : List (Nat × Nat))
    (lines : List (List Diffz.Syntax.Span)) : Prop where
  length : lines.length = bounds.length
  /-- In a line they follow each other, and each is a part of the line's text. -/
  line : ∀ (i : Nat) (line : List Diffz.Syntax.Span) (b : Nat × Nat),
    lines[i]? = some line → bounds[i]? = some b →
    (line.Pairwise fun s s' => s.bytes.stop ≤ s'.bytes.start) ∧
      ∀ s ∈ line, s.bytes.start < s.bytes.stop ∧ b.1 + s.bytes.stop ≤ b.2
  /-- What they cover, and with which token. -/
  covered : ∀ q token,
    (∃ (i : Nat) (line : List Diffz.Syntax.Span) (b : Nat × Nat) (s : Diffz.Syntax.Span),
      lines[i]? = some line ∧ bounds[i]? = some b ∧ s ∈ line ∧ s.token = token ∧
        b.1 + s.bytes.start ≤ q ∧ q < b.1 + s.bytes.stop) ↔
    (∃ h ∈ ranges, h.token = token ∧ h.bytes.start ≤ q ∧ q < h.bytes.stop) ∧ ¬ Terminator text q

theorem lands_of_clipped (hlines : Lines 0 text bounds) {ranges : List Diffz.Syntax.Span}
    (hord : ranges.Pairwise fun h h' => h.bytes.stop ≤ h'.bytes.start)
    (hin : ∀ h ∈ ranges, h.bytes.stop ≤ text.length) :
    Lands text ranges bounds (bounds.map fun b => ranges.flatMap (lit · b)) := by
  have hpart : ∀ h s b, s ∈ lit h b → h.bytes.start ≤ b.1 + s.bytes.start ∧
      s.bytes.start < s.bytes.stop ∧ b.1 + s.bytes.stop ≤ b.2 ∧
        b.1 + s.bytes.stop ≤ h.bytes.stop := by
    intro h s b hs
    obtain ⟨hlt, heq⟩ := clip_eq_some_iff.mp (mem_lit.mp hs).1
    rw [heq]
    dsimp only
    omega
  refine ⟨List.length_map .., fun i line b hline hb => ?_, fun q token => ?_⟩
  · rw [List.getElem?_map, hb, Option.map_some, Option.some.injEq] at hline
    subst hline
    constructor
    · refine List.pairwise_flatMap.mpr ⟨fun h _ => ?_, hord.imp fun {h h'} hle s hs s' hs' => ?_⟩
      · unfold lit
        cases clip h.bytes b with
        | none => exact .nil
        | some r => exact List.pairwise_singleton ..
      · have := hpart h s b hs
        have := hpart h' s' b hs'
        omega
    · intro s hs
      obtain ⟨h, -, hs⟩ := List.mem_flatMap.mp hs
      have := hpart h s b hs
      omega
  · constructor
    · rintro ⟨i, line, b, s, hline, hb, hs, rfl, hq⟩
      rw [List.getElem?_map, hb, Option.map_some, Option.some.injEq] at hline
      subst hline
      obtain ⟨h, hh, hs⟩ := List.mem_flatMap.mp hs
      obtain ⟨hclip, htoken⟩ := mem_lit.mp hs
      obtain ⟨hrange, hline⟩ := mem_clip_iff.mp ⟨s.bytes, hclip, hq⟩
      refine ⟨⟨h, hh, htoken, hrange⟩, ?_⟩
      have := hin h hh
      refine (hlines.mem_iff (by omega)).mp ⟨b, List.mem_of_getElem? hb, ?_⟩
      rwa [Nat.zero_add]
    · rintro ⟨⟨h, hh, rfl, hrange⟩, hnot⟩
      have := hin h hh
      obtain ⟨b, hb, hline⟩ := (hlines.mem_iff (by omega)).mpr hnot
      rw [Nat.zero_add] at hline
      obtain ⟨i, hi⟩ := List.mem_iff_getElem?.mp hb
      obtain ⟨s, hs, hq⟩ := mem_clip_iff.mpr ⟨hrange, hline⟩
      refine ⟨i, _, b, ⟨s, h.token⟩, by rw [List.getElem?_map, hi]; rfl, hi, ?_, rfl, hq⟩
      exact List.mem_flatMap.mpr ⟨h, hh, mem_lit.mpr ⟨hs, rfl⟩⟩

/-- **Spans.** Where no event is an error or unknown, every line gets its spans; else the file has
none. No index is out of bounds in either case. -/
theorem spans_land (source : String) (events : List (Except ε HighlightEvent))
    (hevents : InOrder (asBytes source).length 0 events) :
    ∃ bounds, Lines 0 (asBytes source) bounds ∧
      if events.all readable then
        ∃ lines, spans (.ok events) source = some (some lines) ∧
          Lands (asBytes source) (highlighted events []) bounds lines
      else spans (.ok events) source = some none := by
  obtain ⟨bounds, hbounds, hlines⟩ := exists_boundsFrom [] (asBytes source)
  rw [List.nil_append, List.length_nil] at hbounds
  have hspans : spans (.ok events) source = eventLoop bounds events [] (bounds.map fun _ => []) := by
    simp only [spans, hbounds, Option.bind_eq_bind, Option.bind_some, List.map_const']
  rw [hspans, eventLoop_eq hlines hevents]
  refine ⟨bounds, hlines, ?_⟩
  obtain ⟨hin, hord⟩ := highlighted_ordered hevents []
  split
  · exact ⟨_, rfl, lands_of_clipped hlines hord fun h hh => (hin h hh).2⟩
  · rfl

/-- A range over two lines of a file. -/
theorem twoLines_land : ∃ bounds, Lines 0 (asBytes "a\r\nb") bounds ∧
    ∃ lines, spans (ε := Unit)
        (.ok [.ok (.highlightStart 14), .ok (.source 0 4), .ok .highlightEnd]) "a\r\nb" =
      some (some lines) ∧
      Lands (asBytes "a\r\nb") [⟨⟨0, 4⟩, .comment⟩] bounds lines := by
  have hevents : InOrder (ε := Unit) (asBytes "a\r\nb").length 0
      [.ok (.highlightStart 14), .ok (.source 0 4), .ok .highlightEnd] :=
    ⟨by decide, by decide, by decide, trivial⟩
  obtain ⟨bounds, hlines, hlands⟩ := spans_land _ _ hevents
  exact ⟨bounds, hlines, hlands⟩

end Diffz.Proof.Syntax
