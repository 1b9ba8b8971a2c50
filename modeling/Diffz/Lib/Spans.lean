import Mathlib.Data.List.Infix
import Mathlib.Data.List.Basic

/-!
# Spans of text

A text is a list of characters, and its positions are byte offsets into its UTF-8. A slice is taken
between two such offsets, and there is none where an offset is inside of a character. `Marks` says
that spans mark parts of a text, with what is left of it where the marked parts are deleted, and
`Wrapped` what becomes of it where they get markers.
-/

set_option autoImplicit false

namespace Diffz

/-- `Range<usize>`. -/
structure Span where
  start : Nat
  stop : Nat
deriving DecidableEq, Repr

/-- `Range::len`. -/
def Span.len (r : Span) : Nat := r.stop - r.start

/-- `str::len`. -/
def byteLen : List Char → Nat
  | [] => 0
  | c :: t => c.utf8Size + byteLen t

/-- `split_at_checked`. -/
def splitBytes : Nat → List Char → Option (List Char × List Char)
  | 0, t => some ([], t)
  | _ + 1, [] => none
  | n + 1, c :: t =>
    if c.utf8Size ≤ n + 1 then
      (splitBytes (n + 1 - c.utf8Size) t).map fun st => (c :: st.1, st.2)
    else none

/-- `&t[r]`. -/
def slice (t : List Char) (r : Span) : Option (List Char) :=
  if r.start ≤ r.stop then
    (splitBytes r.start t).bind fun xu => (splitBytes r.len xu.2).map (·.1)
  else none

/-- `is_char_boundary`. -/
def isCharBoundary (t : List Char) (n : Nat) : Bool := (splitBytes n t).isSome

variable {s t u : List Char} {c : Char} {n p : Nat} {r : Span}

@[simp] theorem byteLen_nil : byteLen [] = 0 := rfl

@[simp] theorem byteLen_cons : byteLen (c :: t) = c.utf8Size + byteLen t := rfl

@[simp] theorem byteLen_append (s t : List Char) : byteLen (s ++ t) = byteLen s + byteLen t := by
  induction s with
  | nil => simp
  | cons c s ih => simp [ih, Nat.add_assoc]

theorem byteLen_pos (h : t ≠ []) : 0 < byteLen t := by
  obtain ⟨c, t, rfl⟩ := List.exists_cons_of_ne_nil h
  have := c.utf8Size_pos
  simp only [byteLen_cons]
  omega

/-- Of two beginnings of a text, the one with fewer bytes begins the other. -/
theorem isPrefix_of_byteLen_le (hs : s <+: t) (hu : u <+: t) (hle : byteLen u ≤ byteLen s) :
    u <+: s := by
  rcases List.prefix_or_prefix_of_prefix hu hs with h | ⟨r, rfl⟩
  · exact h
  · rcases r with _ | ⟨c, r⟩
    · rw [List.append_nil]
    · have hpos := c.utf8Size_pos
      rw [byteLen_append, byteLen_cons] at hle
      omega

theorem splitBytes_cons : splitBytes (n + 1) (c :: t) =
    if c.utf8Size ≤ n + 1 then
      (splitBytes (n + 1 - c.utf8Size) t).map fun st => (c :: st.1, st.2)
    else none := rfl

theorem splitBytes_append (s u : List Char) : splitBytes (byteLen s) (s ++ u) = some (s, u) := by
  induction s with
  | nil => cases u <;> rfl
  | cons c s ih =>
    have hpos := c.utf8Size_pos
    obtain ⟨n, hn⟩ : ∃ n, byteLen (c :: s) = n + 1 := ⟨byteLen (c :: s) - 1, by simp; omega⟩
    have hrest : n + 1 - c.utf8Size = byteLen s := by
      simp only [byteLen_cons] at hn
      omega
    simp only [byteLen_cons] at hn
    rw [byteLen_cons, hn, List.cons_append, splitBytes_cons, if_pos (by omega), hrest, ih]
    rfl

/-- What is split off is the part of the text of that length. -/
theorem splitBytes_eq_some_iff :
    splitBytes n t = some (s, u) ↔ t = s ++ u ∧ byteLen s = n := by
  constructor
  · intro h
    induction t generalizing n s with
    | nil =>
      cases n with
      | zero =>
        cases h
        exact ⟨rfl, rfl⟩
      | succ n => cases h
    | cons c t ih =>
      cases n with
      | zero =>
        cases h
        exact ⟨rfl, rfl⟩
      | succ n =>
        rw [splitBytes_cons] at h
        split at h
        · obtain ⟨⟨s', u'⟩, hsplit, heq⟩ := Option.map_eq_some_iff.mp h
          cases heq
          obtain ⟨rfl, hlen⟩ := ih hsplit
          exact ⟨rfl, by simp only [byteLen_cons]; omega⟩
        · cases h
  · rintro ⟨rfl, rfl⟩
    exact splitBytes_append s u

/-- A slice is the part of the text between two offsets. -/
theorem slice_eq_some_iff : slice t r = some s ↔
    ∃ x y, t = x ++ s ++ y ∧ byteLen x = r.start ∧ byteLen x + byteLen s = r.stop := by
  unfold slice
  constructor
  · intro h
    split at h
    · obtain ⟨⟨x, u⟩, hu, hs⟩ := Option.bind_eq_some_iff.mp h
      obtain ⟨⟨s', y⟩, hy, heq⟩ := Option.map_eq_some_iff.mp hs
      obtain rfl : s' = s := heq
      obtain ⟨rfl, hx⟩ := splitBytes_eq_some_iff.1 hu
      obtain ⟨rfl, hlen⟩ := splitBytes_eq_some_iff.1 hy
      simp only [Span.len] at hlen
      exact ⟨x, y, by simp, hx, by omega⟩
    · cases h
  · rintro ⟨x, y, rfl, hx, hlen⟩
    have hlen' : byteLen s = r.len := by
      simp only [Span.len]
      omega
    rw [if_pos (by omega), ← hx, List.append_assoc, splitBytes_append, Option.bind_some, ← hlen',
      splitBytes_append]
    rfl

theorem slice_stop (h : slice t r = some s) : r.stop = r.start + byteLen s := by
  obtain ⟨x, y, -, hx, hlen⟩ := slice_eq_some_iff.1 h
  omega

theorem append_inj_of_byteLen {x y x' y' : List Char} (h : x ++ y = x' ++ y')
    (hlen : byteLen x = byteLen x') : x = x' ∧ y = y' := by
  have hsplit := splitBytes_append x y
  rw [h, hlen, splitBytes_append] at hsplit
  exact ⟨(Prod.mk.inj (Option.some.inj hsplit)).1.symm, (Prod.mk.inj (Option.some.inj hsplit)).2.symm⟩

/-- Slices that follow each other make one slice. -/
theorem slice_join {m : Nat} (h : slice t ⟨n, m⟩ = some s) (h' : slice t ⟨m, p⟩ = some u) :
    slice t ⟨n, p⟩ = some (s ++ u) := by
  obtain ⟨x, y, rfl, hx, hlen⟩ := slice_eq_some_iff.1 h
  obtain ⟨x', y', heq, hx', hlen'⟩ := slice_eq_some_iff.1 h'
  dsimp only at hx hlen hx' hlen'
  rw [List.append_assoc x' u y'] at heq
  obtain ⟨rfl, rfl⟩ := append_inj_of_byteLen heq (by rw [byteLen_append]; omega)
  refine slice_eq_some_iff.2 ⟨x, y', by simp, hx, ?_⟩
  simp only [byteLen_append] at hlen' ⊢
  omega

/-- A slice of a slice. -/
theorem slice_slice (h : slice t r = some s) {q : Span} (hq : slice s q = some u) :
    slice t ⟨r.start + q.start, r.start + q.stop⟩ = some u := by
  obtain ⟨x, y, rfl, hx, -⟩ := slice_eq_some_iff.1 h
  obtain ⟨x', y', rfl, hx', hlen⟩ := slice_eq_some_iff.1 hq
  refine slice_eq_some_iff.2 ⟨x ++ x', y' ++ y, by simp, ?_, ?_⟩
  · rw [byteLen_append, hx, hx']
  · rw [byteLen_append, hx, Nat.add_assoc, hlen]

theorem isCharBoundary_iff : isCharBoundary t n = true ↔ ∃ x y, t = x ++ y ∧ byteLen x = n := by
  rw [isCharBoundary, Option.isSome_iff_exists, Prod.exists]
  exact exists_congr fun x => exists_congr fun y => splitBytes_eq_some_iff

/-- There is a slice between any two boundaries. -/
theorem exists_slice {m : Nat} (hn : isCharBoundary t n = true) (hm : isCharBoundary t m = true)
    (hle : n ≤ m) : ∃ s, slice t ⟨n, m⟩ = some s := by
  obtain ⟨x, y, rfl, rfl⟩ := isCharBoundary_iff.1 hn
  obtain ⟨x', y', heq, rfl⟩ := isCharBoundary_iff.1 hm
  rcases List.append_eq_append_iff.mp heq with ⟨s, rfl, rfl⟩ | ⟨s, rfl, rfl⟩
  · exact ⟨s, slice_eq_some_iff.2 ⟨x, y', by simp, rfl, by simp⟩⟩
  · -- Then the two are one place.
    obtain rfl : s = [] := by
      by_contra hne
      have := byteLen_pos hne
      rw [byteLen_append] at hle
      omega
    exact ⟨[], slice_eq_some_iff.2 ⟨x', y, by simp, by simp, by simp⟩⟩

theorem isCharBoundary_zero (t : List Char) : isCharBoundary t 0 = true :=
  isCharBoundary_iff.2 ⟨[], t, rfl, rfl⟩

theorem isCharBoundary_byteLen (t : List Char) : isCharBoundary t (byteLen t) = true :=
  isCharBoundary_iff.2 ⟨t, [], by simp, rfl⟩

theorem isCharBoundary_le (h : isCharBoundary t n = true) : n ≤ byteLen t := by
  obtain ⟨x, y, rfl, rfl⟩ := isCharBoundary_iff.1 h
  rw [byteLen_append]
  exact Nat.le_add_right _ _

/-- A boundary of a slice is one of the text. -/
theorem isCharBoundary_slice (h : slice t r = some s) (hn : isCharBoundary s n = true) :
    isCharBoundary t (r.start + n) = true := by
  obtain ⟨x, y, rfl, hx, -⟩ := slice_eq_some_iff.1 h
  obtain ⟨x', y', rfl, rfl⟩ := isCharBoundary_iff.1 hn
  exact isCharBoundary_iff.2 ⟨x ++ x', y' ++ y, by simp, by rw [byteLen_append, hx]⟩

/-! ## Marked text -/

/-- What is left of a text that begins at `p` where the marked parts are deleted. -/
def unmarked (rs : List Span) : Nat → List Char → List Char
  | _, [] => []
  | p, c :: t =>
    if rs.any fun r => decide (r.start ≤ p) && decide (p < r.stop) then
      unmarked rs (p + c.utf8Size) t
    else c :: unmarked rs (p + c.utf8Size) t

/-- The spans mark parts of a text that begins at `p`, one after the other and none empty, and
without these parts the text is `k`. -/
inductive Marks : Nat → List Char → List Span → List Char → Prop
  | nil (p : Nat) : Marks p [] [] []
  | keep {p : Nat} {c : Char} {t k : List Char} {rs : List Span}
      (rest : Marks (p + c.utf8Size) t rs k) : Marks p (c :: t) rs (c :: k)
  | mark {p : Nat} {s t k : List Char} {rs : List Span} (hne : s ≠ [])
      (rest : Marks (p + byteLen s) t rs k) :
      Marks p (s ++ t) (⟨p, p + byteLen s⟩ :: rs) k

theorem unmarked_inside {rs : List Span} (hr : r ∈ rs) (hstart : r.start ≤ p)
    (hstop : p + byteLen s ≤ r.stop) : unmarked rs p (s ++ t) = unmarked rs (p + byteLen s) t := by
  induction s generalizing p with
  | nil => rfl
  | cons c s ih =>
    have hpos := c.utf8Size_pos
    simp only [byteLen_cons] at hstop
    have hmem : (rs.any fun r => decide (r.start ≤ p) && decide (p < r.stop)) = true := by
      refine List.any_eq_true.mpr ⟨r, hr, ?_⟩
      simp only [hstart, decide_true, Bool.true_and, decide_eq_true_eq]
      omega
    rw [List.cons_append, unmarked, if_pos hmem, ih (by omega) (by omega), byteLen_cons,
      Nat.add_assoc]

theorem unmarked_past {rs : List Span} (h : r.stop ≤ p) :
    unmarked (r :: rs) p t = unmarked rs p t := by
  induction t generalizing p with
  | nil => rfl
  | cons c t ih =>
    have hnot : ¬ p < r.stop := by omega
    rw [unmarked, unmarked, ih (by omega), List.any_cons]
    simp [hnot]

namespace Marks

variable {k k' : List Char} {rs rs' : List Span}

theorem append (h : Marks p t rs k) (h' : Marks (p + byteLen t) u rs' k') :
    Marks p (t ++ u) (rs ++ rs') (k ++ k') := by
  induction h with
  | nil p => exact h'
  | @keep p c t k rs rest ih =>
    refine .keep (ih ?_)
    rwa [Nat.add_assoc, ← byteLen_cons]
  | @mark p s t k rs hne rest ih =>
    rw [List.append_assoc]
    refine .mark hne (ih ?_)
    rwa [Nat.add_assoc, ← byteLen_append]

theorem none (p : Nat) (t : List Char) : Marks p t [] t := by
  induction t generalizing p with
  | nil => exact .nil p
  | cons c t ih => exact .keep (ih _)

theorem one (p : Nat) (hne : s ≠ []) : Marks p s [⟨p, p + byteLen s⟩] [] := by
  have h := Marks.mark hne (Marks.nil (p + byteLen s))
  rwa [List.append_nil] at h

theorem bounds (h : Marks p t rs k) :
    ∀ r ∈ rs, p ≤ r.start ∧ r.start < r.stop ∧ r.stop ≤ p + byteLen t := by
  induction h with
  | nil p => simp
  | keep rest ih =>
    intro r hr
    have := ih r hr
    simp only [byteLen_cons]
    omega
  | mark hne rest ih =>
    intro r hr
    have hpos := byteLen_pos hne
    rw [byteLen_append]
    rcases List.mem_cons.mp hr with rfl | hr
    · dsimp only
      omega
    · have := ih r hr
      omega

theorem ordered (h : Marks p t rs k) : rs.Pairwise fun r r' => r.stop ≤ r'.start := by
  induction h with
  | nil p => exact .nil
  | keep rest ih => exact ih
  | mark hne rest ih => exact .cons (fun r hr => (rest.bounds r hr).1) ih

/-- Both ends of a mark are character boundaries. -/
theorem boundary (h : Marks p t rs k) : ∀ r ∈ rs, ∀ n ∈ [r.start, r.stop],
    ∃ x y, t = x ++ y ∧ n = p + byteLen x := by
  induction h with
  | nil p => simp
  | @keep p c t k rs rest ih =>
    intro r hr n hn
    obtain ⟨x, y, rfl, rfl⟩ := ih r hr n hn
    exact ⟨c :: x, y, rfl, by simp only [byteLen_cons]; omega⟩
  | @mark p s t k rs hne rest ih =>
    intro r hr n hn
    rcases List.mem_cons.mp hr with rfl | hr
    · simp only [List.mem_cons, List.not_mem_nil, or_false] at hn
      rcases hn with rfl | rfl
      · exact ⟨[], s ++ t, rfl, by simp⟩
      · exact ⟨s, t, rfl, rfl⟩
    · obtain ⟨x, y, rfl, rfl⟩ := ih r hr n hn
      exact ⟨s ++ x, y, by simp, by simp only [byteLen_append]; omega⟩

theorem unmarked_eq (h : Marks p t rs k) : unmarked rs p t = k := by
  induction h with
  | nil p => rfl
  | @keep p c t k rs rest ih =>
    have hpos := c.utf8Size_pos
    have hnot : (rs.any fun r => decide (r.start ≤ p) && decide (p < r.stop)) = false := by
      refine List.any_eq_false.mpr fun r hr => ?_
      have := (rest.bounds r hr).1
      have hlt : ¬ r.start ≤ p := by omega
      simp [hlt]
    rw [unmarked, hnot, ih]
    rfl
  | @mark p s t k rs hne rest ih =>
    rw [unmarked_inside (List.mem_cons_self ..) (le_refl p) (le_refl _), unmarked_past (le_refl _),
      ih]

end Marks

/-! ## Wrapped text -/

/-- The text that begins at `p`, with a pair of markers around each span of it. -/
inductive Wrapped (marker : List Char × List Char) :
    Nat → List Char → List Span → List Char → Prop
  | nil (p : Nat) : Wrapped marker p [] [] []
  | keep {p : Nat} {c : Char} {t out : List Char} {rs : List Span}
      (rest : Wrapped marker (p + c.utf8Size) t rs out) : Wrapped marker p (c :: t) rs (c :: out)
  | wrap {p : Nat} {s t out : List Char} {rs : List Span} (hne : s ≠ [])
      (rest : Wrapped marker (p + byteLen s) t rs out) :
      Wrapped marker p (s ++ t) (⟨p, p + byteLen s⟩ :: rs) (marker.1 ++ (s ++ (marker.2 ++ out)))

namespace Wrapped

variable {marker : List Char × List Char} {out : List Char} {rs : List Span}

theorem none (p : Nat) (t : List Char) : Wrapped marker p t [] t := by
  induction t generalizing p with
  | nil => exact .nil p
  | cons c t ih => exact .keep (ih _)

theorem before (s : List Char) (h : Wrapped marker (p + byteLen s) t rs out) :
    Wrapped marker p (s ++ t) rs (s ++ out) := by
  induction s generalizing p with
  | nil => exact h
  | cons c s ih =>
    refine .keep (ih ?_)
    rwa [Nat.add_assoc, ← byteLen_cons]

theorem marks (h : Wrapped marker p t rs out) : ∃ k, Marks p t rs k := by
  induction h with
  | nil p => exact ⟨[], .nil p⟩
  | keep rest ih =>
    obtain ⟨k, hk⟩ := ih
    exact ⟨_, .keep hk⟩
  | wrap hne rest ih =>
    obtain ⟨k, hk⟩ := ih
    exact ⟨k, .mark hne hk⟩

end Wrapped

/-! ## Tokens -/

/-- The text of a span, where there is one. -/
def textOf (t : List Char) (r : Span) : List Char := (slice t r).getD []

/-- The text of spans, one after the other. -/
def flat (t : List Char) (a : List Span) : List Char := (a.map (textOf t)).flatten

/-- The spans follow each other from `p` on, each with a text. -/
def Tiles (t : List Char) : Nat → List Span → Prop
  | _, [] => True
  | p, r :: a => r.start = p ∧ (∃ s, s ≠ [] ∧ slice t r = some s) ∧ Tiles t r.stop a

section Tiles

variable {a b : List Span} {T : List Char}

theorem textOf_eq (h : slice T r = some s) : textOf T r = s := by
  rw [textOf, h]
  rfl

@[simp] theorem flat_nil : flat T [] = [] := rfl

@[simp] theorem flat_cons : flat T (r :: a) = textOf T r ++ flat T a := rfl

@[simp] theorem flat_append : flat T (a ++ b) = flat T a ++ flat T b := by
  simp [flat]

theorem tiles_append :
    Tiles T p (a ++ b) ↔ Tiles T p a ∧ Tiles T (p + byteLen (flat T a)) b := by
  induction a generalizing p with
  | nil => simp [Tiles]
  | cons r a ih =>
    simp only [List.cons_append, Tiles, ih, and_assoc]
    refine and_congr_right fun hstart => and_congr_right fun htext => and_congr_right fun _ => ?_
    obtain ⟨s, -, hs⟩ := htext
    rw [slice_stop hs, hstart, flat_cons, textOf_eq hs, byteLen_append, Nat.add_assoc]

theorem Tiles.mapM (h : Tiles T p a) : a.mapM (slice T) = some (a.map (textOf T)) := by
  induction a generalizing p with
  | nil => rfl
  | cons r a ih =>
    obtain ⟨-, ⟨s, -, hs⟩, hrest⟩ := h
    rw [List.mapM_cons, ih hrest, List.map_cons, textOf_eq hs, hs]
    rfl

theorem Tiles.slice_eq (h : Tiles T p a) (hr : r ∈ a) : slice T r = some (textOf T r) := by
  induction a generalizing p with
  | nil => cases hr
  | cons q a ih =>
    obtain ⟨-, ⟨s, -, hs⟩, hrest⟩ := h
    rcases List.mem_cons.mp hr with rfl | hr
    · rw [textOf_eq hs, hs]
    · exact ih hrest hr

theorem Tiles.textOf_ne (h : Tiles T p a) (hr : r ∈ a) : textOf T r ≠ [] := by
  induction a generalizing p with
  | nil => cases hr
  | cons q a ih =>
    obtain ⟨-, ⟨s, hne, hs⟩, hrest⟩ := h
    rcases List.mem_cons.mp hr with rfl | hr
    · rwa [textOf_eq hs]
    · exact ih hrest hr

/-- All of them are marked. -/
theorem Tiles.marks (h : Tiles T p a) : Marks p (flat T a) a [] := by
  induction a generalizing p with
  | nil => exact .nil p
  | cons r a ih =>
    obtain ⟨rfl, ⟨s, hne, hs⟩, hrest⟩ := h
    have hr : r = ⟨r.start, r.start + byteLen s⟩ := by rw [← slice_stop hs]
    rw [flat_cons, textOf_eq hs]
    have hmarks := ih hrest
    rw [slice_stop hs] at hmarks
    have hmark := Marks.mark hne hmarks
    rwa [← hr] at hmark

/-- The text of all of them is a slice. -/
theorem Tiles.slice_flat (h : Tiles T p a) (hne : a ≠ []) :
    (∀ r ∈ a.head?, r.start = p) ∧ (∀ r ∈ a.getLast?, r.stop = p + byteLen (flat T a)) ∧
      slice T ⟨p, p + byteLen (flat T a)⟩ = some (flat T a) := by
  induction a generalizing p with
  | nil => exact absurd rfl hne
  | cons r a ih =>
    obtain ⟨rfl, ⟨s, -, hs⟩, hrest⟩ := h
    have hstop := slice_stop hs
    have hflat : flat T (r :: a) = s ++ flat T a := by rw [flat_cons, textOf_eq hs]
    refine ⟨by simp, ?_⟩
    rcases eq_or_ne a [] with rfl | hne'
    · simp only [flat_nil, List.append_nil] at hflat
      rw [hflat, ← hstop]
      exact ⟨by simp, hs⟩
    · obtain ⟨-, hlast, hslice⟩ := ih hrest hne'
      have hend : r.stop + byteLen (flat T a) = r.start + byteLen (flat T (r :: a)) := by
        rw [hflat, byteLen_append]
        omega
      rw [hend] at hlast hslice
      rw [hflat] at hlast hslice ⊢
      refine ⟨fun q hq => hlast q ?_, slice_join hs hslice⟩
      rwa [List.getLast?_cons_of_ne_nil hne'] at hq

end Tiles

end Diffz
