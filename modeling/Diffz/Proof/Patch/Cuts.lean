import Diffz.Proof.Patch.Quote

/-!
# Where an unquoted header is cut

A `diff --git` line that begins without a quote is cut at its only ` b/`. When the second path is
quoted the mark between the two paths is ` "b/`, so the cut falls inside one of them. The piece
after it is a path whatever it is; the piece before it need not be.
-/

set_option autoImplicit false

namespace Diffz
namespace Proof
namespace Patch

open Diffz.Github (plainByte quoteByte quotePath)

/-! ## Segments -/

/-- A path is its segments, one after another. -/
theorem segment_induction {P : Bytes → Prop} (last : ∀ s, 47 ∉ s → P s)
    (cons : ∀ s p, 47 ∉ s → P p → P (s ++ 47 :: p)) (p : Bytes) : P p := by
  induction hn : p.length using Nat.strong_induction_on generalizing p with
  | _ n ih =>
    by_cases h : 47 ∈ p
    · obtain ⟨s, q, rfl, hs⟩ := List.eq_append_cons_of_mem h
      refine cons s q hs (ih q.length ?_ q rfl)
      simp only [List.length_append, List.length_cons] at hn
      omega
    · exact last p h

/-- More text in the last segment, when it cannot end a `.` or a `..`. -/
theorem SegmentsValid.append {p t : Bytes} {c : UInt8} (h : SegmentsValid p) (ht : 47 ∉ t)
    (hc : t.getLast? = some c) (hdot : c ≠ 46) : SegmentsValid (p ++ t) := by
  induction p using segment_induction with
  | last s hs =>
    rw [segmentsValid_of_not_mem (by simp [hs, ht])]
    have hend : (s ++ t).getLast? = some c := by
      rw [List.getLast?_append, hc]
      rfl
    have hne : ∀ q : Bytes, q.getLast? ≠ some c → s ++ t ≠ q := fun q hq he => hq (he ▸ hend)
    have hdots : ∀ q : Bytes, q.getLast? = some 46 → q.getLast? ≠ some c := by
      intro q hq he
      exact hdot (Option.some.inj (he.symm.trans hq))
    exact ⟨hne [] (by simp), hne _ (hdots _ (by decide)), hne _ (hdots _ (by decide))⟩
  | cons s p _ ih =>
    obtain ⟨hs, hp⟩ := segmentsValid_append.mp h
    rw [List.append_assoc, List.cons_append]
    exact segmentsValid_append.mpr ⟨hs, ih hp⟩

theorem flatMap_quoteByte_injective {p q : Bytes} (h : p.flatMap quoteByte = q.flatMap quoteByte) :
    p = q := by
  have hp := unquote_flatMap_quoteByte p
  rw [h, unquote_flatMap_quoteByte q] at hp
  cases hp
  rfl

theorem not_mem_flatMap_quoteByte {c : UInt8} {p : Bytes} (hc : c ∉ escapeBytes) (hp : c ∉ p) :
    c ∉ p.flatMap quoteByte := by
  intro h
  obtain ⟨b, hb, hcb⟩ := List.mem_flatMap.mp h
  rcases mem_quoteByte hcb with ⟨rfl, -⟩ | hesc
  · exact hp hb
  · exact hc hesc

/-- Quoting keeps the slashes, and no other segment is written as `.` or `..`. -/
theorem segmentsValid_quoted (p : Bytes) :
    SegmentsValid (p.flatMap quoteByte) ↔ SegmentsValid p := by
  have hdot : (asBytes ".").flatMap quoteByte = asBytes "." := by decide
  have hdots : (asBytes "..").flatMap quoteByte = asBytes ".." := by decide
  have hone : ∀ s : Bytes, 47 ∉ s → (SegmentsValid (s.flatMap quoteByte) ↔ SegmentsValid s) := by
    intro s hs
    have hiff : ∀ t : Bytes, t.flatMap quoteByte = t → (s.flatMap quoteByte = t ↔ s = t) := by
      intro t ht
      constructor
      · intro h
        exact flatMap_quoteByte_injective (h.trans ht.symm)
      · rintro rfl
        exact ht
    rw [segmentsValid_of_not_mem (not_mem_flatMap_quoteByte (by decide) hs),
      segmentsValid_of_not_mem hs, ne_eq, ne_eq, ne_eq, hiff [] rfl, hiff _ hdot, hiff _ hdots]
  induction p using segment_induction with
  | last s hs => exact hone s hs
  | cons s p hs ih =>
    have hcut : (s ++ 47 :: p).flatMap quoteByte =
        s.flatMap quoteByte ++ 47 :: p.flatMap quoteByte := by
      rw [List.flatMap_append, List.flatMap_cons]
      rfl
    rw [hcut, segmentsValid_append, segmentsValid_append]
    exact and_congr (hone s hs) ih

/-! ## Occurrences of the mark -/

theorem occurrences_shift (i : Nat) (l : Bytes) :
    occurrences sideMark i l = (occurrences sideMark 0 l).map (i + ·) := by
  induction l generalizing i with
  | nil => rfl
  | cons x l ih =>
    have hfirst : (if sideMark.isPrefixOf (x :: l) then [i] else []) =
        (if sideMark.isPrefixOf (x :: l) then [0] else []).map (i + ·) := by
      split <;> rfl
    rw [occurrences, occurrences, List.map_append, ← hfirst, ih (i + 1), ih (0 + 1), List.map_map]
    congr 2
    funext k
    simp only [Function.comp_apply]
    omega

/-- No mark begins where there is no space. -/
theorem occurrences_skip {a : Bytes} (ha : 32 ∉ a) (i : Nat) (b : Bytes) :
    occurrences sideMark i (a ++ b) = occurrences sideMark (i + a.length) b := by
  induction a generalizing i with
  | nil => rfl
  | cons x a ih =>
    rw [List.mem_cons, not_or] at ha
    have hpre : ¬sideMark.isPrefixOf (x :: (a ++ b)) = true := by
      rw [sideMark_eq]
      simp [List.isPrefixOf, ha.1]
    rw [List.cons_append, occurrences, if_neg hpre, List.nil_append, ih ha.2, List.length_cons]
    congr 1
    omega

/-- Before the quote of the second path, and after its last one. -/
theorem occurrences_open (i : Nat) (a b : Bytes) :
    occurrences sideMark i (a ++ 32 :: 34 :: b) =
      occurrences sideMark i a ++ occurrences sideMark (i + a.length + 2) b := by
  induction a generalizing i with
  | nil =>
    rw [sideMark_eq]
    simp [occurrences, List.isPrefixOf]
  | cons x a ih =>
    have hpre : sideMark.isPrefixOf (x :: (a ++ 32 :: 34 :: b)) = sideMark.isPrefixOf (x :: a) :=
      isPrefixOf_append_space x a (34 :: b)
    rw [List.cons_append, occurrences, hpre, ih, occurrences, List.append_assoc, List.length_cons,
      Nat.add_right_comm i 1, Nat.add_assoc i]

theorem occurrences_close (i : Nat) (a : Bytes) :
    occurrences sideMark i (a ++ [34]) = occurrences sideMark i a := by
  induction a generalizing i with
  | nil =>
    rw [sideMark_eq]
    simp [occurrences, List.isPrefixOf]
  | cons x a ih =>
    have hpre : sideMark.isPrefixOf (x :: (a ++ [34])) = sideMark.isPrefixOf (x :: a) := by
      rw [sideMark_eq]
      rcases a with _ | ⟨y, _ | ⟨z, a⟩⟩
      · simp [List.isPrefixOf]
      · simp [List.isPrefixOf]
      · simp [List.isPrefixOf]
    rw [List.cons_append, occurrences, hpre, ih, occurrences]

theorem quoteByte_of_plain {b : UInt8} (h : plainByte b) : quoteByte b = [b] := by
  obtain ⟨hle, hlt, h34, h92⟩ := plainByte_iff.mp h
  have htab : b ≠ 9 := by
    rintro rfl
    exact absurd hle (by decide)
  have hlf : b ≠ 10 := by
    rintro rfl
    exact absurd hle (by decide)
  have hmax : b ≤ 126 := by
    rw [UInt8.le_iff_toNat_le]
    exact Nat.le_of_lt_succ (UInt8.lt_iff_toNat_lt.mp hlt)
  rw [quoteByte, if_neg h34, if_neg h92, if_neg htab, if_neg hlf, if_pos ⟨hle, hmax⟩]

theorem quoteByte_of_not_plain {b : UInt8} (h : ¬plainByte b) : ∃ t, quoteByte b = 92 :: t := by
  unfold quoteByte
  split
  · exact ⟨_, rfl⟩
  split
  · exact ⟨_, rfl⟩
  split
  · exact ⟨_, rfl⟩
  split
  · exact ⟨_, rfl⟩
  split
  · rename_i h34 h92 _ _ hrange
    exact absurd (plainByte_iff.mpr ⟨hrange.1, UInt8.lt_of_le_of_lt hrange.2 (by decide), h34, h92⟩) h
  · exact ⟨_, rfl⟩

theorem isPrefixOf_quoted {m : Bytes} (hm : m.all plainByte) (p : Bytes) :
    m.isPrefixOf (p.flatMap quoteByte) = m.isPrefixOf p := by
  induction m generalizing p with
  | nil => simp
  | cons x m ih =>
    rw [List.all_cons, Bool.and_eq_true] at hm
    cases p with
    | nil => rfl
    | cons b p =>
      rw [List.flatMap_cons]
      by_cases hb : plainByte b
      · rw [quoteByte_of_plain hb, List.singleton_append, List.isPrefixOf, List.isPrefixOf, ih hm.2]
      · obtain ⟨t, ht⟩ := quoteByte_of_not_plain hb
        have hxb : x ≠ b := by
          rintro rfl
          exact hb hm.1
        have hx92 : x ≠ 92 := (plainByte_iff.mp hm.1).2.2.2
        rw [ht, List.cons_append, List.isPrefixOf, List.isPrefixOf, beq_eq_false_iff_ne.mpr hx92,
          beq_eq_false_iff_ne.mpr hxb, Bool.false_and, Bool.false_and]

/-- Quoting moves the marks and makes none. -/
theorem occurrences_quoted (i : Nat) (p : Bytes) :
    occurrences sideMark i (p.flatMap quoteByte) =
      (occurrences sideMark 0 p).map fun k => i + ((p.take k).flatMap quoteByte).length := by
  induction p generalizing i with
  | nil => rfl
  | cons b p ih =>
    have hstep : occurrences sideMark i ((b :: p).flatMap quoteByte) =
        (if sideMark.isPrefixOf (b :: p) then [i] else []) ++
          occurrences sideMark (i + (quoteByte b).length) (p.flatMap quoteByte) := by
      have hpre := isPrefixOf_quoted (m := sideMark) (by decide) (b :: p)
      by_cases hb : b = 32
      · subst hb
        rw [← hpre, List.flatMap_cons]
        rfl
      · have hskip : 32 ∉ quoteByte b := by
          intro h
          rcases mem_quoteByte h with ⟨h, -⟩ | h
          · exact hb h.symm
          · exact absurd h (by decide)
        have hnot : ¬sideMark.isPrefixOf (b :: p) = true := by
          rw [sideMark_eq]
          simp [List.isPrefixOf, Ne.symm hb]
        rw [if_neg hnot, List.flatMap_cons, occurrences_skip hskip, List.nil_append]
    have hfirst : (if sideMark.isPrefixOf (b :: p) then [i] else []) =
        (if sideMark.isPrefixOf (b :: p) then [0] else []).map fun k =>
          i + (((b :: p).take k).flatMap quoteByte).length := by
      split <;> rfl
    rw [hstep, ih, occurrences, List.map_append, ← hfirst, occurrences_shift (0 + 1), List.map_map]
    congr 2
    funext k
    simp only [Function.comp_apply, Nat.zero_add, Nat.add_comm 1 k, List.take_succ_cons,
      List.flatMap_cons, List.length_append]
    omega

/-! ## The cut -/

variable {prev name : RepoPath}

/-- An unquoted path before a quoted one: when ` b/` occurs once in the two paths, what stands
before it there is a path as well. -/
def cutsWell (prev name : RepoPath) : Bool :=
  match occurrences sideMark 0 prev.bytes, occurrences sideMark 0 name.bytes with
  | [k], [] => validPath (prev.bytes.take k)
  | [], [k] => validPath (name.bytes.take k)
  | _, _ => true

theorem drop_of_mem_occurrences {i k : Nat} {l : Bytes} (h : k ∈ occurrences sideMark i l) :
    i ≤ k ∧ sideMark.isPrefixOf (l.drop (k - i)) = true := by
  induction l generalizing i with
  | nil => cases h
  | cons x l ih =>
    rw [occurrences, List.mem_append] at h
    rcases h with h | h
    · split at h
      · rename_i hx
        obtain rfl := List.mem_singleton.mp h
        rw [Nat.sub_self]
        exact ⟨le_rfl, hx⟩
      · cases h
    · obtain ⟨hle, hpre⟩ := ih h
      obtain ⟨d, rfl⟩ := Nat.exists_eq_add_of_le hle
      refine ⟨by omega, ?_⟩
      rw [show i + 1 + d - i = d + 1 by omega, List.drop_succ_cons]
      rwa [Nat.add_sub_cancel_left] at hpre

/-- A mark cuts a text in two. -/
theorem eq_cut_of_mem_occurrences {k : Nat} {l : Bytes} (h : k ∈ occurrences sideMark 0 l) :
    ∃ post, l = l.take k ++ (sideMark ++ post) ∧ (l.take k).length = k := by
  obtain ⟨-, hpre⟩ := drop_of_mem_occurrences h
  obtain ⟨post, hpost⟩ := List.isPrefixOf_iff_prefix.mp hpre
  have hcut : l = l.take k ++ (sideMark ++ post) := by
    rw [hpost]
    exact (List.take_append_drop k l).symm
  have hlen := congrArg List.length hcut
  have hmark : sideMark.length = 3 := by decide
  refine ⟨post, hcut, ?_⟩
  simp only [List.length_append, List.length_take, hmark] at hlen ⊢
  omega

/-- The line with a path after the mark is taken or not for what is before it. -/
theorem headerPaths_cut {a b : Bytes} (hq : a.head? ≠ some 34) (ha : a ≠ [])
    (hocc : occurrences sideMark 0 (a ++ (sideMark ++ b)) = [a.length]) (hb : validPath b = true)
    (i : Nat) :
    (validPath a = true → ∃ r, headerPaths (a ++ (sideMark ++ b)) i = .ok r) ∧
      (validPath a = false → ∃ e, headerPaths (a ++ (sideMark ++ b)) i = .error e) := by
  have hdrop : (a ++ (sideMark ++ b)).drop (a.length + 1) = 98 :: 47 :: b := by
    rw [List.drop_length_add_append, sideMark_eq]
    rfl
  have hhead : (a ++ (sideMark ++ b)).head? ≠ some 34 := by
    rwa [List.head?_append_of_ne_nil _ ha]
  obtain ⟨new, hnew⟩ := (path_unquoted (v := 98 :: 47 :: b) (by simp) i).1 (validPath_side (.inr rfl) hb)
  unfold headerPaths
  rw [if_neg hhead, ← sideMark, hocc]
  dsimp only
  rw [List.take_left, hdrop]
  constructor
  · intro hv
    obtain ⟨old, hold⟩ := (path_unquoted hq i).1 hv
    rw [hold]
    simp only [bind, Except.bind, hnew]
    exact ⟨_, rfl⟩
  · intro hv
    obtain ⟨e, he⟩ := (path_unquoted hq i).2 hv
    rw [he]
    exact ⟨e, rfl⟩

theorem headText_mixed (hp : prev.bytes.all plainByte) (hn : ¬name.bytes.all plainByte) :
    headText prev name = 97 :: 47 :: (prev.bytes ++ 32 :: 34 :: 98 :: 47 ::
      (name.bytes.flatMap quoteByte ++ [34])) := by
  rw [headText, quotePath_of_plain hp, quotePath_of_not_plain hn, show asBytes "a/" = [97, 47] by decide,
    show asBytes " " = [32] by decide, show asBytes "b/" = [98, 47] by decide]
  simp

theorem occurrences_headText_mixed (hp : prev.bytes.all plainByte)
    (hn : ¬name.bytes.all plainByte) :
    occurrences sideMark 0 (headText prev name) =
      (occurrences sideMark 0 prev.bytes).map (2 + ·) ++
        (occurrences sideMark 0 name.bytes).map fun k =>
          prev.bytes.length + 6 + ((name.bytes.take k).flatMap quoteByte).length := by
  have hside : ∀ i b, occurrences sideMark i (98 :: 47 :: b) = occurrences sideMark (i + 2) b :=
    fun i b => occurrences_skip (a := [98, 47]) (by decide) i b
  rw [headText_mixed hp hn, ← List.cons_append, ← List.cons_append, occurrences_open, hside,
    occurrences_close, occurrences_quoted]
  congr 1
  · exact (occurrences_skip (a := [97, 47]) (by decide) 0 prev.bytes).trans (occurrences_shift 2 _)
  · congr 1
    funext k
    simp only [List.length_cons]
    omega

/-- What follows a mark in a path begins a segment. -/
theorem valid_after_mark {p : RepoPath} {pre post : Bytes} (h : p.bytes = pre ++ (sideMark ++ post)) :
    0 ∉ pre ∧ 0 ∉ post ∧ SegmentsValid post := by
  obtain ⟨hz, hseg⟩ := validPath_iff.mp p.valid
  rw [h] at hz hseg
  have hcut : pre ++ (sideMark ++ post) = (pre ++ [32, 98]) ++ 47 :: post := by
    rw [sideMark_eq]
    simp
  rw [hcut] at hseg
  simp only [List.mem_append, not_or] at hz
  exact ⟨hz.1, hz.2.2, (segmentsValid_append.mp hseg).2⟩

theorem zero_not_mem_quoted (p : Bytes) : 0 ∉ p.flatMap quoteByte := by
  intro h
  obtain ⟨b, -, hb⟩ := List.mem_flatMap.mp h
  exact absurd (le_of_mem_quoteByte hb) (by decide)

/-- Text that ends in the quote before the second path's `b`. -/
theorem segmentsValid_open {p q : Bytes} (hp : SegmentsValid p) :
    SegmentsValid (p ++ 32 :: 34 :: 98 :: 47 :: q) ↔ SegmentsValid q := by
  have hcut : p ++ 32 :: 34 :: 98 :: 47 :: q = (p ++ [32, 34, 98]) ++ 47 :: q := by simp
  have hopen : SegmentsValid (p ++ [32, 34, 98]) :=
    hp.append (c := 98) (by decide) (by decide) (by decide)
  rw [hcut, segmentsValid_append]
  exact and_iff_right hopen

theorem segmentsValid_close {p : Bytes} (hp : SegmentsValid p) :
    SegmentsValid (p.flatMap quoteByte ++ [34]) :=
  ((segmentsValid_quoted p).mpr hp).append (c := 34) (by decide) (by decide) (by decide)

theorem headerPaths_cut_prev (hp : prev.bytes.all plainByte) (hn : ¬name.bytes.all plainByte)
    {k : Nat} (hprev : occurrences sideMark 0 prev.bytes = [k])
    (hname : occurrences sideMark 0 name.bytes = []) (i : Nat) :
    (validPath (prev.bytes.take k) = true → ∃ r, headerPaths (headText prev name) i = .ok r) ∧
      (validPath (prev.bytes.take k) = false →
        ∃ e, headerPaths (headText prev name) i = .error e) := by
  obtain ⟨post, hpost, hk⟩ := eq_cut_of_mem_occurrences (k := k) (l := prev.bytes) (by simp [hprev])
  obtain ⟨-, hz, hseg⟩ := valid_after_mark hpost
  have hocc : occurrences sideMark 0 (headText prev name) =
      [(97 :: 47 :: prev.bytes.take k).length] := by
    rw [occurrences_headText_mixed hp hn, hprev, hname, List.length_cons, List.length_cons, hk]
    simp only [List.map_cons, List.map_nil, List.append_nil, List.cons.injEq, and_true]
    omega
  have hcut : headText prev name = (97 :: 47 :: prev.bytes.take k) ++ (sideMark ++
      (post ++ 32 :: 34 :: 98 :: 47 :: (name.bytes.flatMap quoteByte ++ [34]))) := by
    rw [headText_mixed hp hn]
    conv_lhs => rw [hpost]
    simp
  have hsn : SegmentsValid name.bytes := (validPath_iff.mp name.valid).2
  have hrest : validPath (post ++ 32 :: 34 :: 98 :: 47 ::
      (name.bytes.flatMap quoteByte ++ [34])) = true := by
    refine validPath_iff.mpr ⟨?_, (segmentsValid_open hseg).mpr (segmentsValid_close hsn)⟩
    have hq := zero_not_mem_quoted name.bytes
    simp only [List.mem_append, List.mem_cons, List.not_mem_nil, not_or]
    exact ⟨hz, by decide, by decide, by decide, by decide, hq, by decide, id⟩
  have hside : validPath (97 :: 47 :: prev.bytes.take k) = validPath (prev.bytes.take k) :=
    Bool.eq_iff_iff.mpr (validPath_side_iff (.inl rfl))
  rw [hcut] at hocc ⊢
  rw [← hside]
  exact headerPaths_cut (by simp) (by simp) hocc hrest i

theorem headerPaths_cut_name (hp : prev.bytes.all plainByte) (hn : ¬name.bytes.all plainByte)
    {k : Nat} (hprev : occurrences sideMark 0 prev.bytes = [])
    (hname : occurrences sideMark 0 name.bytes = [k]) (i : Nat) :
    (validPath (name.bytes.take k) = true → ∃ r, headerPaths (headText prev name) i = .ok r) ∧
      (validPath (name.bytes.take k) = false →
        ∃ e, headerPaths (headText prev name) i = .error e) := by
  obtain ⟨post, hpost, -⟩ := eq_cut_of_mem_occurrences (k := k) (l := name.bytes) (by simp [hname])
  obtain ⟨hz, -, hseg⟩ := valid_after_mark hpost
  have hocc : occurrences sideMark 0 (headText prev name) = [(97 :: 47 ::
      (prev.bytes ++ 32 :: 34 :: 98 :: 47 :: (name.bytes.take k).flatMap quoteByte)).length] := by
    rw [occurrences_headText_mixed hp hn, hprev, hname]
    simp only [List.map_cons, List.map_nil, List.nil_append, List.length_cons, List.length_append,
      List.cons.injEq, and_true]
    omega
  have hmark : sideMark.flatMap quoteByte = sideMark := by decide
  have hcut : headText prev name = (97 :: 47 ::
      (prev.bytes ++ 32 :: 34 :: 98 :: 47 :: (name.bytes.take k).flatMap quoteByte)) ++
        (sideMark ++ (post.flatMap quoteByte ++ [34])) := by
    rw [headText_mixed hp hn]
    conv_lhs => rw [hpost]
    simp [hmark]
  have hrest : validPath (post.flatMap quoteByte ++ [34]) = true := by
    refine validPath_iff.mpr ⟨?_, segmentsValid_close hseg⟩
    rw [List.mem_append, not_or]
    exact ⟨zero_not_mem_quoted post, by decide⟩
  have hside : validPath (97 :: 47 :: (prev.bytes ++ 32 :: 34 :: 98 :: 47 ::
      (name.bytes.take k).flatMap quoteByte)) = validPath (name.bytes.take k) := by
    obtain ⟨hzp, hsp⟩ := validPath_iff.mp prev.valid
    have hq := zero_not_mem_quoted (name.bytes.take k)
    rw [Bool.eq_iff_iff, validPath_side_iff (.inl rfl), validPath_iff, validPath_iff,
      segmentsValid_open hsp, segmentsValid_quoted]
    refine and_congr_left fun _ => iff_of_true ?_ hz
    simp only [List.mem_append, List.mem_cons, not_or]
    exact ⟨hzp, by decide, by decide, by decide, by decide, hq⟩
  rw [hcut] at hocc ⊢
  rw [← hside]
  exact headerPaths_cut (by simp) (by simp) hocc hrest i

/-- **What an unquoted path before a quoted one makes of the line.** Without a mark, or with two,
the line names no path, which is no error. -/
theorem headerPaths_mixed (hp : prev.bytes.all plainByte) (hn : ¬name.bytes.all plainByte) (i : Nat) :
    (cutsWell prev name = true → ∃ r, headerPaths (headText prev name) i = .ok r) ∧
      (cutsWell prev name = false → ∃ e, headerPaths (headText prev name) i = .error e) := by
  have hocc := occurrences_headText_mixed hp hn
  have hq : (headText prev name).head? ≠ some 34 := by
    rw [headText_mixed hp hn]
    simp
  have hnone : (∀ k, occurrences sideMark 0 (headText prev name) ≠ [k]) →
      headerPaths (headText prev name) i = .ok (none, none) := by
    intro hk
    unfold headerPaths
    rw [if_neg hq, ← sideMark]
    generalize occurrences sideMark 0 (headText prev name) = occ at hk
    rcases occ with _ | ⟨k, _ | ⟨l, rest⟩⟩
    · rfl
    · exact absurd rfl (hk k)
    · rfl
  unfold cutsWell
  rcases hprev : occurrences sideMark 0 prev.bytes with _ | ⟨k, _ | ⟨l, rest⟩⟩
  · rcases hname : occurrences sideMark 0 name.bytes with _ | ⟨m, _ | ⟨n, rest'⟩⟩
    · exact ⟨fun _ => ⟨_, hnone (by simp [hocc, hprev, hname])⟩, by simp⟩
    · exact headerPaths_cut_name hp hn hprev hname i
    · exact ⟨fun _ => ⟨_, hnone (by simp [hocc, hprev, hname])⟩, by simp⟩
  · rcases hname : occurrences sideMark 0 name.bytes with _ | ⟨m, rest'⟩
    · exact headerPaths_cut_prev hp hn hprev hname i
    · exact ⟨fun _ => ⟨_, hnone (by simp [hocc, hprev, hname])⟩, by simp⟩
  · exact ⟨fun _ => ⟨_, hnone (by simp [hocc, hprev])⟩, by simp⟩

end Patch
end Proof
end Diffz
