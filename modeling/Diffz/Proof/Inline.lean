import Diffz.Core.Inline

/-!
# What word marks mark

Tokens tile a text, and each part of the code marks some of the tiles and leaves the others: `Marks`
says which text is left. At each level the parts between the matches of a subsequence are marked or
handed to the level below, so the marks of a level are put together from those of its parts.
-/

set_option autoImplicit false

namespace Diffz
namespace Proof
namespace Inline

open Diffz.Inline

/-! ## Tokens -/

section Tokens

variable {alphanumeric : Char → Bool} {limit count start : Nat} {x text T : List Char}
  {a : List Span}

theorem run_append (c : Char) (rest : List Char) :
    run alphanumeric c rest ++ rest.drop (run alphanumeric c rest).length = rest :=
  List.prefix_iff_eq_append.mp (List.takeWhile_prefix _)

theorem tokensFrom_tiles (hT : T = x ++ text) (hx : byteLen x = start)
    (h : tokensFrom alphanumeric limit count start text = some a) :
    Tiles T start a ∧ flat T a = text := by
  induction count, start, text using tokensFrom.induct alphanumeric limit generalizing x a with
  | case1 count start =>
    rw [tokensFrom] at h
    cases h
    exact ⟨trivial, rfl⟩
  | case2 count start c rest hfull =>
    rw [tokensFrom, if_pos hfull] at h
    cases h
  | case3 count start c rest hroom ih =>
    rw [tokensFrom, if_neg hroom] at h
    obtain ⟨a, ha, rfl⟩ := Option.map_eq_some_iff.mp h
    obtain ⟨token, htoken⟩ : ∃ token, token = c :: run alphanumeric c rest := ⟨_, rfl⟩
    have hrest : c :: rest = token ++ rest.drop (run alphanumeric c rest).length := by
      rw [htoken, List.cons_append, run_append]
    have hend : byteLen x + byteLen token = tokenEnd alphanumeric start c rest := by
      rw [htoken, byteLen_cons, hx, tokenEnd, Nat.add_assoc]
    rw [hrest, ← List.append_assoc] at hT
    have hslice : slice T ⟨start, tokenEnd alphanumeric start c rest⟩ = some token :=
      slice_eq_some_iff.mpr ⟨x, _, hT, hx, hend⟩
    obtain ⟨htiles, hflat⟩ := ih hT (by rw [byteLen_append, hend]) ha
    refine ⟨⟨rfl, ⟨token, by simp [htoken], hslice⟩, htiles⟩, ?_⟩
    rw [flat_cons, textOf_eq hslice, hflat, hrest]

theorem tokens_tiles (h : tokens alphanumeric T limit = some a) : Tiles T 0 a ∧ flat T a = T :=
  tokensFrom_tiles (List.nil_append T).symm rfl h

theorem exists_tokensFrom (h : count + byteLen text ≤ limit) :
    ∃ a, tokensFrom alphanumeric limit count start text = some a := by
  induction count, start, text using tokensFrom.induct alphanumeric limit with
  | case1 count start => exact ⟨[], by rw [tokensFrom]⟩
  | case2 count start c rest hfull =>
    have := c.utf8Size_pos
    simp only [byteLen_cons] at h
    omega
  | case3 count start c rest hroom ih =>
    have hpos := c.utf8Size_pos
    have hrun := congrArg byteLen (@run_append alphanumeric c rest)
    rw [byteLen_append] at hrun
    simp only [byteLen_cons] at h
    obtain ⟨a, ha⟩ := ih (by omega)
    exact ⟨_, by rw [tokensFrom, if_neg hroom, ha]; rfl⟩

end Tokens

/-! ## Coalescing -/

section Coalesce

variable {p q m n : Nat} {r : Span} {rs rs' v : List Span} {t k : List Char}

/-- Two marks with nothing between them are one. -/
theorem marks_join (h : Marks p t (⟨q, m⟩ :: ⟨m, n⟩ :: v) k) : Marks p t (⟨q, n⟩ :: v) k := by
  generalize hrs : (⟨q, m⟩ :: ⟨m, n⟩ :: v : List Span) = rs at h
  induction h with
  | nil p => cases hrs
  | keep rest ih => exact .keep (ih hrs)
  | @mark p s t k rs hne rest ih =>
    injection hrs with hfirst hrest
    injection hfirst with hq hm
    subst hq hm hrest
    cases rest with
    | @keep _ c t k rs rest =>
      -- A character between the two would keep the second from where the first ends.
      have hpos := c.utf8Size_pos
      have := (rest.bounds _ (List.mem_cons_self ..)).1
      dsimp only at this
      omega
    | @mark _ s' t k rs hne' rest =>
      have hlen : q + byteLen s + byteLen s' = q + byteLen (s ++ s') := by
        rw [byteLen_append, Nat.add_assoc]
      rw [hlen] at rest ⊢
      rw [← List.append_assoc]
      exact .mark (by simp [hne]) rest

theorem marks_tail (h : Marks p t (r :: rs) k)
    (himp : ∀ p t k, Marks p t rs k → Marks p t rs' k) : Marks p t (r :: rs') k := by
  generalize hrs : r :: rs = all at h
  induction h with
  | nil p => cases hrs
  | keep rest ih => exact .keep (ih hrs)
  | mark hne rest ih =>
    injection hrs with hfirst hrest
    subst hfirst hrest
    exact .mark hne (himp _ _ _ rest)

theorem coalesceFrom_marks (h : Marks p t (r :: v) k) : Marks p t (coalesceFrom r v) k := by
  induction v generalizing r p t k with
  | nil => exact h
  | cons r' v ih =>
    rw [coalesceFrom]
    split
    · rename_i hstop
      have hr' : r' = ⟨r.stop, r'.stop⟩ := by rw [hstop]
      rw [hr'] at h
      exact ih (marks_join h)
    · exact marks_tail h fun _ _ _ => ih

theorem coalesce_marks (h : Marks p t v k) : Marks p t (coalesce v) k := by
  cases v with
  | nil => exact h
  | cons r v => exact coalesceFrom_marks h

theorem coalesceFrom_ne_nil : coalesceFrom r v ≠ [] := by
  induction v generalizing r with
  | nil => simp [coalesceFrom]
  | cons r' v ih =>
    rw [coalesceFrom]
    split
    · exact ih
    · simp

theorem coalesce_eq_nil_iff : coalesce v = [] ↔ v = [] := by
  cases v with
  | nil => exact Iff.rfl
  | cons r v => exact iff_of_false coalesceFrom_ne_nil (by simp)

end Coalesce

/-! ## Between the matches -/

/-- Two lists cut at equal keys, and what is between the cuts on both sides. -/
inductive Gaps {α β : Type} (f g : β → α) (gap : List α → List α → Prop) :
    List β → List β → List (List β × List β) → Prop
  | done {a b : List β} (h : gap (a.map f) (b.map g)) : Gaps f g gap a b [(a, b)]
  | pair {s t a b : List β} {x y : β} {gs : List (List β × List β)}
      (h : gap (s.map f) (t.map g)) (heq : f x = g y) (rest : Gaps f g gap a b gs) :
      Gaps f g gap (s ++ x :: a) (t ++ y :: b) ((s, t) :: gs)

section Gaps

variable {α β : Type} {f g : β → α} {gap : List α → List α → Prop} {a b s u : List β} {x : β}
  {i j : Nat} {m : List (Nat × Nat)}

theorem sub_drop (h : a.drop i = s ++ u) (hi : i ≤ a.length) :
    sub a i (i + s.length) = some s := by
  have hlen := congrArg List.length h
  simp only [List.length_drop, List.length_append] at hlen
  rw [sub, if_pos ⟨by omega, by omega⟩, List.drop_take, h]
  simp

theorem drop_past (h : a.drop i = s ++ x :: u) : a.drop (i + s.length + 1) = u := by
  rw [Nat.add_assoc, ← List.drop_drop, h]
  simp

theorem exists_gapsFrom {A B : List β} {ta tb : List α} (h : Alignment gap i j ta tb m)
    (ha : (A.drop i).map f = ta) (hb : (B.drop j).map g = tb) (hi : i ≤ A.length)
    (hj : j ≤ B.length) :
    ∃ gs, gapsFrom A B i j (m ++ [(A.length, B.length)]) = some gs ∧
      Gaps f g gap (A.drop i) (B.drop j) gs := by
  induction h with
  | @done i j ta tb hgap =>
    refine ⟨[(A.drop i, B.drop j)], ?_, .done (by rwa [ha, hb])⟩
    simp [gapsFrom, sub, hi, hj]
  | @pair i j s t ta tb z m hgap rest ih =>
    obtain ⟨s', a', hA, rfl, ha'⟩ := List.map_eq_append_iff.mp ha
    obtain ⟨x, a', rfl, hx, rfl⟩ := List.map_eq_cons_iff.mp ha'
    obtain ⟨t', b', hB, rfl, hb'⟩ := List.map_eq_append_iff.mp hb
    obtain ⟨y, b', rfl, hy, rfl⟩ := List.map_eq_cons_iff.mp hb'
    simp only [List.length_map] at ih ⊢
    have hlenA := congrArg List.length hA
    have hlenB := congrArg List.length hB
    simp only [List.length_drop, List.length_append, List.length_cons] at hlenA hlenB
    have hdropA := drop_past hA
    have hdropB := drop_past hB
    obtain ⟨gs, hgs, hgaps⟩ := ih (by rw [hdropA]) (by rw [hdropB]) (by omega) (by omega)
    rw [hdropA, hdropB] at hgaps
    refine ⟨(s', t') :: gs, ?_, ?_⟩
    · have hminA : min (i + s'.length + 1) A.length = i + s'.length + 1 := by omega
      have hminB : min (j + t'.length + 1) B.length = j + t'.length + 1 := by omega
      rw [List.cons_append, gapsFrom, sub_drop hA hi, sub_drop hB hj]
      simp only [hminA, hminB, hgs, Option.map_some]
    · rw [hA, hB]
      exact .pair hgap (hx.trans hy.symm) hgaps

/-- With nothing between the cuts, the keys are the same. -/
theorem Gaps.map_eq {gs : List (List β × List β)} (h : Gaps f g gap a b gs)
    (hgs : ∀ st ∈ gs, st.1 = [] ∧ st.2 = []) : a.map f = b.map g := by
  induction h with
  | done _ =>
    obtain ⟨rfl, rfl⟩ := hgs _ (List.mem_singleton_self _)
    rfl
  | pair _ heq _ ih =>
    obtain ⟨rfl, rfl⟩ := hgs _ (List.mem_cons_self ..)
    simp [heq, ih fun st hst => hgs st (List.mem_cons_of_mem _ hst)]

theorem Gaps.eq_nil {gs : List (List β × List β)}
    (h : Gaps f g (fun s t => s = [] ∧ t = []) a b gs) : ∀ st ∈ gs, st = ([], []) := by
  induction h with
  | done h =>
    intro st hst
    obtain rfl := List.mem_singleton.mp hst
    simpa using h
  | pair h _ _ ih =>
    intro st hst
    rcases List.mem_cons.mp hst with rfl | hst
    · simpa using h
    · exact ih st hst

variable [DecidableEq α]

theorem lcs_alignment (ta tb : List α) : Alignment anyGap 0 0 ta tb (lcs ta tb) := by
  rw [lcs]
  split
  · exact .done trivial
  · exact walk_alignment _ 0 0 ta tb

theorem exists_gaps (h : Alignment gap 0 0 (a.map f) (b.map g) (lcs (a.map f) (b.map g))) :
    ∃ gs, gaps a b (a.map f) (b.map g) = some gs ∧ Gaps f g gap a b gs :=
  exists_gapsFrom h rfl rfl (Nat.zero_le _) (Nat.zero_le _)

end Gaps

/-! ## The marks of tokens -/

section Fine

variable {noisy : Nat → Nat → Bool} {old new : List Char} {a b : List Span} {p q : Nat}

theorem gaps_marks {gap : List (List Char) → List (List Char) → Prop}
    {gs : List (List Span × List Span)} (h : Gaps (textOf old) (textOf new) gap a b gs)
    (ha : Tiles old p a) (hb : Tiles new q b) :
    ∃ k, Marks p (flat old a) (gs.flatMap (·.1)) k ∧ Marks q (flat new b) (gs.flatMap (·.2)) k := by
  induction h generalizing p q with
  | done _ => exact ⟨[], by simpa using ha.marks, by simpa using hb.marks⟩
  | @pair s t a b x y gs _ heq _ ih =>
    rw [← List.singleton_append (l := a), tiles_append, tiles_append] at ha
    rw [← List.singleton_append (l := b), tiles_append, tiles_append] at hb
    obtain ⟨hs, -, ha⟩ := ha
    obtain ⟨ht, -, hb⟩ := hb
    obtain ⟨k, hk, hk'⟩ := ih ha hb
    simp only [flat_cons, flat_nil, List.append_nil] at hk hk'
    refine ⟨textOf old x ++ k, ?_, ?_⟩
    · have := hs.marks.append ((Marks.none _ (textOf old x)).append hk)
      simpa using this
    · have := ht.marks.append ((Marks.none _ (textOf new y)).append hk')
      simpa [heq] using this

/-- **What the marks of tokens leave is the same on both sides.** Without any mark, the tokens are
the same. -/
theorem fine_marks (noisy : Nat → Nat → Bool) (ha : Tiles old p a) (hb : Tiles new q b) :
    ∃ marks, fine noisy old new a b = some marks ∧ ∀ ra rb, marks = some (ra, rb) →
      (∃ k, Marks p (flat old a) ra k ∧ Marks q (flat new b) rb k) ∧
        (ra = [] → rb = [] → a.map (textOf old) = b.map (textOf new)) := by
  obtain ⟨gs, hgs, hgaps⟩ := exists_gaps (f := textOf old) (g := textOf new)
    (lcs_alignment (a.map (textOf old)) (b.map (textOf new)))
  have hfine : fine noisy old new a b =
      if fraction noisy (gs.flatMap (·.1)) (total a) || fraction noisy (gs.flatMap (·.2)) (total b)
      then some none else some (some (coalesce (gs.flatMap (·.1)), coalesce (gs.flatMap (·.2)))) := by
    simp only [fine, ha.mapM, hb.mapM, hgs, Option.bind_eq_bind, Option.bind_some]
    rfl
  refine ⟨_, (by rw [hfine, ← apply_ite some]), fun ra rb h => ?_⟩
  split at h
  · cases h
  cases h
  obtain ⟨k, hk, hk'⟩ := gaps_marks hgaps ha hb
  refine ⟨⟨k, coalesce_marks hk, coalesce_marks hk'⟩, fun hra hrb => hgaps.map_eq fun st hst => ?_⟩
  rw [coalesce_eq_nil_iff, List.flatMap_eq_nil_iff] at hra hrb
  exact ⟨hra st hst, hrb st hst⟩

end Fine

/-! ## Word marks -/

/-- The spans are inside the text, one after the other, and none is empty or begins or ends inside of
a character. -/
structure Ordered (t : List Char) (rs : Ranges) : Prop where
  disjoint : rs.Pairwise fun r r' => r.stop ≤ r'.start
  nonempty : ∀ r ∈ rs, r.start < r.stop
  inBounds : ∀ r ∈ rs, r.stop ≤ byteLen t
  boundary : ∀ r ∈ rs, isCharBoundary t r.start = true ∧ isCharBoundary t r.stop = true

theorem Ordered.of_marks {t k : List Char} {rs : Ranges} (h : Marks 0 t rs k) : Ordered t rs where
  disjoint := h.ordered
  nonempty := fun r hr => (h.bounds r hr).2.1
  inBounds := fun r hr => by simpa using (h.bounds r hr).2.2
  boundary := by
    have hboundary : ∀ r ∈ rs, ∀ n ∈ [r.start, r.stop], isCharBoundary t n = true := by
      intro r hr n hn
      obtain ⟨x, y, rfl, hlen⟩ := h.boundary r hr n hn
      rw [hlen, Nat.zero_add, isCharBoundary, splitBytes_append]
      rfl
    exact fun r hr => ⟨hboundary r hr _ (by simp), hboundary r hr _ (by simp)⟩

/-- **Word marks are sound.** No slice or index of `word_diff` fails, and its spans are ordered,
apart, not empty and on character boundaries of both texts. Without the marked bytes the two texts
are the same, unless nothing is marked at all. -/
theorem wordDiff_sound (alphanumeric : Char → Bool) (noisy : Nat → Nat → Bool) (old new : String) :
    ∃ ra rb, wordDiff alphanumeric noisy old new = some (ra, rb) ∧
      Ordered old.toList ra ∧ Ordered new.toList rb ∧
      ((ra = [] ∧ rb = []) ∨ unmarked ra 0 old.toList = unmarked rb 0 new.toList) := by
  have hblank : Ordered old.toList [] ∧ Ordered new.toList [] :=
    ⟨.of_marks (.none 0 _), .of_marks (.none 0 _)⟩
  rw [wordDiff]
  split
  · exact ⟨[], [], rfl, hblank.1, hblank.2, .inl ⟨rfl, rfl⟩⟩
  cases ha : tokens alphanumeric old.toList maxTokens with
  | none => exact ⟨[], [], rfl, hblank.1, hblank.2, .inl ⟨rfl, rfl⟩⟩
  | some a =>
    cases hb : tokens alphanumeric new.toList maxTokens with
    | none => exact ⟨[], [], rfl, hblank.1, hblank.2, .inl ⟨rfl, rfl⟩⟩
    | some b =>
      obtain ⟨hta, hflata⟩ := tokens_tiles ha
      obtain ⟨htb, hflatb⟩ := tokens_tiles hb
      obtain ⟨marks, hfine, hmarks⟩ := fine_marks noisy hta htb
      dsimp only
      rw [hfine]
      cases marks with
      | none => exact ⟨[], [], rfl, hblank.1, hblank.2, .inl ⟨rfl, rfl⟩⟩
      | some marks =>
        obtain ⟨⟨k, hk, hk'⟩, -⟩ := hmarks marks.1 marks.2 rfl
        rw [hflata] at hk
        rw [hflatb] at hk'
        exact ⟨marks.1, marks.2, rfl, .of_marks hk, .of_marks hk',
          .inr (hk.unmarked_eq.trans hk'.unmarked_eq.symm)⟩

/-- A changed digit after a word that is not ASCII. -/
example : wordDiff Char.isAlphanum (fun changed len => decide (7 * len < 10 * changed))
    "naïve = 1;" "naïve = 2;" =
    some ([{ start := 9, stop := 10 }], [{ start := 9, stop := 10 }]) := by
  decide +kernel

end Inline
end Proof
end Diffz
