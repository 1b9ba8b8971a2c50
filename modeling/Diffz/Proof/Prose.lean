import Diffz.Proof.Inline

/-!
# What prose marks mark

Sentences are runs of tokens, paired where they are the same up to the white space around them. That
white space is all in which the unmarked texts can differ, and it is also what the marks can miss.
-/

set_option autoImplicit false

namespace Diffz
namespace Proof
namespace Inline

open Diffz.Inline

/-! ## Sentences -/

/-- The sentences, cut from the tokens with the number `s` on. -/
inductive Chunks : Nat → List Span → List Sentence → Prop
  | nil (s : Nat) : Chunks s [] []
  | cons {s : Nat} {chunk rest : List Span} {first last : Span} {cs : List Sentence}
      (hfirst : chunk.head? = some first) (hlast : chunk.getLast? = some last)
      (hrest : Chunks (s + chunk.length) rest cs) :
      Chunks s (chunk ++ rest) ({ bytes := { start := first.start, stop := last.stop }
                                  tokens := { start := s, stop := s + chunk.length } } :: cs)

section Sentences

variable {text : List Char} {p s : Nat} {toks pre begun rest a : List Span}
  {cs cs' : List Sentence}

theorem Chunks.append_inv (h : Chunks s a (cs ++ cs')) :
    ∃ a₁ a₂, a = a₁ ++ a₂ ∧ Chunks s a₁ cs ∧ Chunks (s + a₁.length) a₂ cs' := by
  induction cs generalizing s a with
  | nil => exact ⟨[], a, rfl, .nil s, h⟩
  | cons c cs ih =>
    cases h with
    | @cons _ chunk rest first last _ hfirst hlast hrest =>
      obtain ⟨a₁, a₂, rfl, hcs, hcs'⟩ := ih hrest
      refine ⟨chunk ++ a₁, a₂, by simp, .cons hfirst hlast hcs, ?_⟩
      rwa [List.length_append, ← Nat.add_assoc]

theorem exists_sentencesFrom (ht : Tiles text p toks) (hall : toks = pre ++ begun ++ rest)
    (hend : rest = [] → begun = []) :
    ∃ cs, sentencesFrom text toks pre.length (pre.length + begun.length) rest = some cs ∧
      Chunks pre.length (begun ++ rest) cs := by
  induction rest generalizing pre begun with
  | nil =>
    rw [hend rfl]
    exact ⟨[], rfl, .nil _⟩
  | cons t rest ih =>
    have hpiece := ht.slice_eq (r := t) (by simp [hall])
    obtain ⟨terminal, hterminal⟩ : ∃ b, isTerminal text (textOf text t) rest = some b := by
      cases rest with
      | nil => exact ⟨false, rfl⟩
      | cons n rest =>
        have hnext := ht.slice_eq (r := n) (by simp [hall])
        rw [isTerminal, hnext]
        split
        · exact ⟨_, rfl⟩
        · exact ⟨_, rfl⟩
    rw [sentencesFrom, hpiece, Option.bind_eq_bind, Option.bind_some, hterminal,
      Option.bind_eq_bind, Option.bind_some]
    have hcut : begun ++ t :: rest = (begun ++ [t]) ++ rest := by simp
    have hlen : (begun ++ [t]).length = begun.length + 1 := by simp
    split
    · -- The chunk ends here.
      obtain ⟨first, hfirst⟩ : ∃ first, (begun ++ [t]).head? = some first := by
        cases begun with
        | nil => exact ⟨t, rfl⟩
        | cons r begun => exact ⟨r, rfl⟩
      have hat : toks[pre.length]? = some first := by
        rw [hall, List.append_assoc, hcut, List.getElem?_append_right (le_refl _), Nat.sub_self,
          ← List.head?_eq_getElem?, List.head?_append, hfirst]
        rfl
      have hpre : (pre ++ (begun ++ [t])).length = pre.length + begun.length + 1 := by
        rw [List.length_append, hlen, Nat.add_assoc]
      obtain ⟨cs, hcs, hchunks⟩ := @ih (pre ++ (begun ++ [t])) [] (by simp [hall]) fun _ => rfl
      rw [List.length_nil, Nat.add_zero, hpre] at hcs
      rw [hat, Option.bind_eq_bind, Option.bind_some, hcs, hcut]
      rw [List.length_append, List.nil_append] at hchunks
      have hlast : (begun ++ [t]).getLast? = some t := by simp
      have hcons := Chunks.cons hfirst hlast hchunks
      rw [hlen] at hcons
      exact ⟨_, rfl, hcons⟩
    · -- More of the chunk follows.
      rename_i hopen
      have hrest : rest = [] → begun ++ [t] = [] := by
        rintro rfl
        simp [hall, Nat.add_assoc] at hopen
      obtain ⟨cs, hcs, hchunks⟩ := @ih pre (begun ++ [t]) (by simp [hall]) hrest
      rw [hlen, ← Nat.add_assoc] at hcs
      rw [hcut]
      exact ⟨cs, hcs, hchunks⟩

theorem exists_sentences (ht : Tiles text p toks) :
    ∃ cs, sentences text toks = some cs ∧ Chunks 0 toks cs :=
  @exists_sentencesFrom text p toks [] [] toks ht rfl fun _ => rfl

end Sentences

/-! ## Sentences in pairs -/

section Coarse

variable {noisy : Nat → Nat → Bool} {old new : List Char} {limit p q i j : Nat}
  {a b chunk chunk' rest rest' : List Span} {first last first' last' : Span}

/-- A whole sentence is one mark. -/
theorem chunk_slice (ht : Tiles old p chunk) (hfirst : chunk.head? = some first)
    (hlast : chunk.getLast? = some last) :
    (⟨first.start, last.stop⟩ : Span) = ⟨p, p + byteLen (flat old chunk)⟩ ∧
      flat old chunk ≠ [] ∧ slice old ⟨first.start, last.stop⟩ = some (flat old chunk) := by
  have hne : chunk ≠ [] := by
    rintro rfl
    cases hfirst
  obtain ⟨hstart, hstop, hslice⟩ := ht.slice_flat hne
  rw [hstart first hfirst, hstop last hlast]
  refine ⟨rfl, ?_, hslice⟩
  obtain ⟨r, chunk, rfl⟩ := List.exists_cons_of_ne_nil hne
  rw [flat_cons]
  exact fun h => ht.textOf_ne (List.mem_cons_self ..) (List.append_eq_nil_iff.mp h).1

theorem chunk_marks (ht : Tiles old p chunk) (hfirst : chunk.head? = some first)
    (hlast : chunk.getLast? = some last) :
    Marks p (flat old chunk) [⟨first.start, last.stop⟩] [] := by
  obtain ⟨hspan, hne, -⟩ := chunk_slice ht hfirst hlast
  rw [hspan]
  exact .one p hne

theorem refined_marks (noisy : Nat → Nat → Bool) (limit : Nat) (ha : Tiles old p a)
    (hb : Tiles new q b) :
    ∃ marks, refined noisy old new limit a b = some marks ∧ ∀ ra rb, marks = some (ra, rb) →
      (∃ k, Marks p (flat old a) ra k ∧ Marks q (flat new b) rb k) ∧
        (ra = [] → rb = [] → a.map (textOf old) = b.map (textOf new)) := by
  rw [refined]
  split
  · exact fine_marks noisy ha hb
  · exact ⟨none, rfl, fun ra rb h => by cases h⟩

theorem refine_marks (noisy : Nat → Nat → Bool) (limit : Nat) (ha : a.drop i = chunk ++ rest)
    (hb : b.drop j = chunk' ++ rest') (hi : i ≤ a.length) (hj : j ≤ b.length)
    (hta : Tiles old p chunk) (htb : Tiles new q chunk')
    (hfirst : chunk.head? = some first) (hlast : chunk.getLast? = some last)
    (hfirst' : chunk'.head? = some first') (hlast' : chunk'.getLast? = some last') :
    ∃ marks, refine noisy old new limit a b
        { bytes := ⟨first.start, last.stop⟩, tokens := ⟨i, i + chunk.length⟩ }
        { bytes := ⟨first'.start, last'.stop⟩, tokens := ⟨j, j + chunk'.length⟩ } = some marks ∧
      (∃ k, Marks p (flat old chunk) marks.1 k ∧ Marks q (flat new chunk') marks.2 k) ∧
      (marks.1 = [] → marks.2 = [] → chunk.map (textOf old) = chunk'.map (textOf new)) := by
  obtain ⟨marks, hrefined, hmarks⟩ := refined_marks noisy limit hta htb
  rw [refine, sub_drop ha hi, sub_drop hb hj, Option.bind_eq_bind, Option.bind_some,
    Option.bind_eq_bind, Option.bind_some, hrefined]
  cases marks with
  | none =>
    refine ⟨_, rfl, ⟨[], ?_, ?_⟩, fun h => ?_⟩
    · exact chunk_marks hta hfirst hlast
    · exact chunk_marks htb hfirst' hlast'
    · cases h
  | some marks => exact ⟨marks, rfl, hmarks marks.1 marks.2 rfl⟩

variable {S T : List Sentence} {A B : List Span} {x y : Sentence}

theorem chunks_marks (h : Chunks i A S) (ht : Tiles old p A) :
    Marks p (flat old A) (S.map (·.bytes)) [] := by
  induction h generalizing p with
  | nil => exact .nil p
  | cons hfirst hlast _ ih =>
    obtain ⟨hchunk, hrest⟩ := tiles_append.mp ht
    rw [flat_append]
    exact (chunk_marks hchunk hfirst hlast).append (ih hrest)

theorem coarseGap_nil_left (noisy : Nat → Nat → Bool) (limit : Nat) (a b : List Span)
    (T : List Sentence) :
    coarseGap noisy old new limit a b ([], T) = some ([], T.map (·.bytes)) := by
  simp [coarseGap]

theorem coarseGap_nil_right (noisy : Nat → Nat → Bool) (limit : Nat) (a b : List Span)
    (S : List Sentence) :
    coarseGap noisy old new limit a b (S, []) = some (S.map (·.bytes), []) := by
  simp [coarseGap]

theorem coarseGap_cons {marks rest : Ranges × Ranges}
    (hxy : refine noisy old new limit a b x y = some marks)
    (hrest : coarseGap noisy old new limit a b (S, T) = some rest) :
    coarseGap noisy old new limit a b (x :: S, y :: T) =
      some (marks.1 ++ rest.1, marks.2 ++ rest.2) := by
  simp only [coarseGap, Option.bind_eq_bind, Option.pure_def] at hrest ⊢
  obtain ⟨pairs, hpairs, heq⟩ := Option.bind_eq_some_iff.mp hrest
  cases heq
  simp [hxy, hpairs, Nat.succ_min_succ]

/-- The text by which sentences are paired. -/
def trimOf (text : List Char) (c : Sentence) : String := trim (String.ofList (textOf text c.bytes))

theorem coarseGap_marks (noisy : Nat → Nat → Bool) (limit : Nat) (hS : Chunks i A S)
    (hT : Chunks j B T) (ha : a.drop i = A ++ rest) (hb : b.drop j = B ++ rest')
    (hi : i ≤ a.length) (hj : j ≤ b.length) (hta : Tiles old p A) (htb : Tiles new q B) :
    ∃ marks, coarseGap noisy old new limit a b (S, T) = some marks ∧
      (∃ k, Marks p (flat old A) marks.1 k ∧ Marks q (flat new B) marks.2 k) ∧
      (marks.1 = [] → marks.2 = [] → Opposed (S.map (trimOf old)) (T.map (trimOf new)) →
        S = [] ∧ T = []) := by
  induction hS generalizing j p q B T rest rest' with
  | nil i =>
    refine ⟨_, coarseGap_nil_left .., ⟨[], .nil p, chunks_marks hT htb⟩, fun _ h _ => ?_⟩
    exact ⟨rfl, List.map_eq_nil_iff.mp h⟩
  | @cons i chunk A first last S hfirst hlast hS ih =>
    cases hT with
    | nil j =>
      refine ⟨_, coarseGap_nil_right .., ⟨[], chunks_marks (.cons hfirst hlast hS) hta, .nil q⟩,
        fun h _ _ => ?_⟩
      cases h
    | @cons _ chunk' B first' last' T hfirst' hlast' hT =>
      obtain ⟨hchunk, hta⟩ := tiles_append.mp hta
      obtain ⟨hchunk', htb⟩ := tiles_append.mp htb
      rw [List.append_assoc] at ha hb
      obtain ⟨marks, hmarks, ⟨k, hk, hk'⟩, heq⟩ :=
        refine_marks noisy limit ha hb hi hj hchunk hchunk' hfirst hlast hfirst' hlast'
      have hlena := congrArg List.length ha
      have hlenb := congrArg List.length hb
      simp only [List.length_drop, List.length_append] at hlena hlenb
      have hdrop : a.drop (i + chunk.length) = A ++ rest := by
        rw [← List.drop_drop, ha, List.drop_left]
      have hdrop' : b.drop (j + chunk'.length) = B ++ rest' := by
        rw [← List.drop_drop, hb, List.drop_left]
      obtain ⟨marks', hmarks', ⟨l, hl, hl'⟩, -⟩ :=
        ih hT hdrop hdrop' (by omega) (by omega) hta htb
      refine ⟨_, coarseGap_cons hmarks hmarks', ⟨k ++ l, ?_, ?_⟩, fun hleft hright hopposed => ?_⟩
      · rw [flat_append]
        exact hk.append hl
      · rw [flat_append]
        exact hk'.append hl'
      · -- Sentences without a mark have the same words.
        have hwords := heq (List.append_eq_nil_iff.mp hleft).1 (List.append_eq_nil_iff.mp hright).1
        have hflat : flat old chunk = flat new chunk' := congrArg List.flatten hwords
        refine absurd ?_ (hopposed _ (List.mem_cons_self ..))
        simp only [trimOf, textOf_eq (chunk_slice hchunk hfirst hlast).2.2,
          textOf_eq (chunk_slice hchunk' hfirst' hlast').2.2, hflat]

/-! ## The marks of prose -/

/-- A text without its white space. -/
def withoutSpace (t : List Char) : List Char := t.filter fun c => !isWhitespace c

@[simp] theorem withoutSpace_append (s t : List Char) :
    withoutSpace (s ++ t) = withoutSpace s ++ withoutSpace t := List.filter_append ..

theorem withoutSpace_dropWhile (t : List Char) :
    withoutSpace (t.dropWhile isWhitespace) = withoutSpace t := by
  conv_rhs => rw [← List.takeWhile_append_dropWhile (p := isWhitespace) (l := t)]
  have hnil : withoutSpace (t.takeWhile isWhitespace) = [] := by
    refine List.filter_eq_nil_iff.mpr fun c hc => ?_
    simp [List.mem_takeWhile_imp hc]
  rw [withoutSpace_append, hnil, List.nil_append]

theorem withoutSpace_reverse (t : List Char) :
    withoutSpace t.reverse = (withoutSpace t).reverse := List.filter_reverse ..

theorem withoutSpace_trim (t : List Char) :
    withoutSpace (trim (String.ofList t)).toList = withoutSpace t := by
  rw [trim, String.toList_ofList, String.toList_ofList, List.rdropWhile, withoutSpace_reverse,
    withoutSpace_dropWhile, withoutSpace_reverse, List.reverse_reverse, withoutSpace_dropWhile]

theorem withoutSpace_eq {c c' : Sentence} (h : trimOf old c = trimOf new c') :
    withoutSpace (textOf old c.bytes) = withoutSpace (textOf new c'.bytes) := by
  have hold := withoutSpace_trim (textOf old c.bytes)
  have hnew := withoutSpace_trim (textOf new c'.bytes)
  rw [trimOf, trimOf] at h
  rw [← hold, ← hnew, h]

theorem rounds_marks (noisy : Nat → Nat → Bool) (limit : Nat)
    {gs : List (List Sentence × List Sentence)}
    (hgaps : Gaps (trimOf old) (trimOf new) Opposed S T gs) (hS : Chunks i A S)
    (hT : Chunks j B T) (ha : a.drop i = A) (hb : b.drop j = B) (hi : i ≤ a.length)
    (hj : j ≤ b.length) (hta : Tiles old p A) (htb : Tiles new q B) :
    ∃ rounds, gs.mapM (coarseGap noisy old new limit a b) = some rounds ∧
      (∃ k l, Marks p (flat old A) (rounds.flatMap (·.1)) k ∧
        Marks q (flat new B) (rounds.flatMap (·.2)) l ∧ withoutSpace k = withoutSpace l) ∧
      (rounds.flatMap (·.1) = [] → rounds.flatMap (·.2) = [] → ∀ st ∈ gs, st.1 = [] ∧ st.2 = []) := by
  induction hgaps generalizing i j p q A B with
  | done hgap =>
    obtain ⟨marks, hmarks, ⟨k, hk, hk'⟩, hnil⟩ := coarseGap_marks noisy limit hS hT
      (ha.trans (List.append_nil A).symm) (hb.trans (List.append_nil B).symm) hi hj hta htb
    refine ⟨[marks], ?_, ⟨k, k, by simpa using hk, by simpa using hk', rfl⟩, ?_⟩
    · rw [List.mapM_cons, hmarks]
      rfl
    · intro hleft hright st hst
      obtain rfl := List.mem_singleton.mp hst
      simp only [List.flatMap_cons, List.flatMap_nil, List.append_nil] at hleft hright
      exact hnil hleft hright hgap
  | @pair s t S T x y gs hgap heq hgaps ih =>
    obtain ⟨A₁, A₂, rfl, hS₁, hS₂⟩ := hS.append_inv
    obtain ⟨B₁, B₂, rfl, hT₁, hT₂⟩ := hT.append_inv
    cases hS₂ with
    | @cons _ chunk A₂ first last _ hfirst hlast hS₂ =>
    cases hT₂ with
    | @cons _ chunk' B₂ first' last' _ hfirst' hlast' hT₂ =>
    obtain ⟨hta₁, hta₂⟩ := tiles_append.mp hta
    obtain ⟨htb₁, htb₂⟩ := tiles_append.mp htb
    obtain ⟨hchunk, hta₂⟩ := tiles_append.mp hta₂
    obtain ⟨hchunk', htb₂⟩ := tiles_append.mp htb₂
    obtain ⟨marks, hmarks, ⟨k, hk, hk'⟩, hnil⟩ := coarseGap_marks noisy limit hS₁ hT₁ ha hb hi hj
      hta₁ htb₁
    have hlena := congrArg List.length ha
    have hlenb := congrArg List.length hb
    simp only [List.length_drop, List.length_append] at hlena hlenb
    have hdrop : a.drop (i + A₁.length + chunk.length) = A₂ := by
      rw [← List.drop_drop, ← List.drop_drop, ha, List.drop_left, List.drop_left]
    have hdrop' : b.drop (j + B₁.length + chunk'.length) = B₂ := by
      rw [← List.drop_drop, ← List.drop_drop, hb, List.drop_left, List.drop_left]
    obtain ⟨rounds, hrounds, ⟨k₂, l₂, hk₂, hl₂, hspace⟩, hnil₂⟩ :=
      ih hS₂ hT₂ hdrop hdrop' (by omega) (by omega) hta₂ htb₂
    refine ⟨marks :: rounds, ?_, ⟨k ++ (flat old chunk ++ k₂), k ++ (flat new chunk' ++ l₂),
      ?_, ?_, ?_⟩, ?_⟩
    · rw [List.mapM_cons, hmarks, hrounds]
      rfl
    · rw [flat_append, flat_append, List.flatMap_cons]
      exact hk.append ((Marks.none _ (flat old chunk)).append hk₂)
    · rw [flat_append, flat_append, List.flatMap_cons]
      exact hk'.append ((Marks.none _ (flat new chunk')).append hl₂)
    · -- The sentences that are matched differ in white space only.
      have hmatched := withoutSpace_eq heq
      rw [textOf_eq (chunk_slice hchunk hfirst hlast).2.2,
        textOf_eq (chunk_slice hchunk' hfirst' hlast').2.2] at hmatched
      simp only [withoutSpace_append, hmatched, hspace]
    · intro hleft hright st hst
      rw [List.flatMap_cons, List.append_eq_nil_iff] at hleft hright
      rcases List.mem_cons.mp hst with rfl | hst
      · exact hnil hleft.1 hright.1 hgap
      · exact hnil₂ hleft.2 hright.2 st hst

theorem span_eq (ht : Tiles old p a) (hne : a ≠ []) :
    span a = [⟨p, p + byteLen (flat old a)⟩] := by
  obtain ⟨hfirst, hlast, -⟩ := ht.slice_flat hne
  have hhead := List.head?_eq_some_head hne
  have hgetLast := List.getLast?_eq_some_getLast hne
  rw [span, hhead, hgetLast]
  simp only [hfirst _ hhead, hlast _ hgetLast]

theorem span_marks (ht : Tiles old p a) : Marks p (flat old a) (span a) [] := by
  rcases eq_or_ne a [] with rfl | hne
  · exact .nil p
  · rw [span_eq ht hne]
    refine .one p fun h => ?_
    obtain ⟨r, a, rfl⟩ := List.exists_cons_of_ne_nil hne
    exact ht.textOf_ne (List.mem_cons_self ..) (List.append_eq_nil_iff.mp h).1

theorem span_ne_nil (ha : Tiles old p a) (hb : Tiles new q b) (hne : a ≠ [] ∨ b ≠ [])
    (hleft : span a = []) (hright : span b = []) : False := by
  rcases hne with hne | hne
  · rw [span_eq ha hne] at hleft
    cases hleft
  · rw [span_eq hb hne] at hright
    cases hright

theorem mapM_trimmed (hS : Chunks i A S) (hta : Tiles old p A) :
    S.mapM (trimmed old) = some (S.map (trimOf old)) := by
  induction hS generalizing p with
  | nil i => rfl
  | cons hfirst hlast _ ih =>
    obtain ⟨hchunk, hta⟩ := tiles_append.mp hta
    obtain ⟨-, -, hslice⟩ := chunk_slice hchunk hfirst hlast
    rw [List.mapM_cons, ih hta, trimmed, hslice, List.map_cons, trimOf, textOf_eq hslice]
    rfl

/-- The words of the table hold the lengths, as the number of pairs is limited. -/
theorem lcs_opposed {ta tb : List String} (h : ta.length * tb.length ≤ 4000000) :
    Alignment Opposed 0 0 ta tb (lcs ta tb) := by
  rw [lcs]
  split
  · rename_i hempty
    refine .done ?_
    rcases hempty with rfl | rfl
    · simp [Opposed]
    · simp [Opposed]
  · refine walk_opposed ta tb fun n hn => ?_
    have hsquare : min ta.length tb.length * min ta.length tb.length ≤ 4000000 :=
      (Nat.mul_le_mul (min_le_left _ _) (min_le_right _ _)).trans h
    have hmin : min ta.length tb.length ≤ 2000 := by
      by_contra hlt
      have hlt : 2001 ≤ min ta.length tb.length := by omega
      have := Nat.mul_le_mul hlt hlt
      omega
    exact Nat.mod_eq_of_lt (by simp only [u32Max]; omega)

theorem lcs_self (ta : List String) :
    Alignment (fun s t => s = [] ∧ t = []) 0 0 ta ta (lcs ta ta) := by
  rw [lcs]
  split
  · rename_i hempty
    obtain rfl : ta = [] := by simpa using hempty
    exact .done ⟨rfl, rfl⟩
  · exact walk_self _ 0 0 ta

theorem rounds_nil {gs : List (List Sentence × List Sentence)} (h : ∀ st ∈ gs, st = ([], [])) :
    gs.mapM (coarseGap noisy old new limit a b) = some (gs.map fun _ => ([], [])) := by
  induction gs with
  | nil => rfl
  | cons st gs ih =>
    rw [List.mapM_cons, h st (List.mem_cons_self ..), coarseGap_nil_left,
      ih fun st hst => h st (List.mem_cons_of_mem _ hst)]
    rfl

/-- **The marks of sentences**, and when there are none although tokens are left. -/
theorem coarse_marks (noisy : Nat → Nat → Bool) (limit : Nat) (hta : Tiles old p a)
    (htb : Tiles new q b) (hne : a ≠ [] ∨ b ≠ []) :
    ∃ ca cb marks, sentences old a = some ca ∧ sentences new b = some cb ∧
      coarse noisy old new limit a b = some marks ∧
      (∃ k l, Marks p (flat old a) marks.1 k ∧ Marks q (flat new b) marks.2 l ∧
        withoutSpace k = withoutSpace l) ∧
      (marks = ([], []) ↔ ca.length * cb.length ≤ 4000000 ∧
        ca.map (trimOf old) = cb.map (trimOf new)) := by
  obtain ⟨ca, hca, hchunks⟩ := exists_sentences hta
  obtain ⟨cb, hcb, hchunks'⟩ := exists_sentences htb
  have hcoarse : coarse noisy old new limit a b =
      if ca.length * cb.length > 4000000 then some (span a, span b)
      else
        (gaps ca cb (ca.map (trimOf old)) (cb.map (trimOf new))).bind fun gs =>
          (gs.mapM (coarseGap noisy old new limit a b)).bind fun rounds =>
            some (coalesce (rounds.flatMap (·.1)), coalesce (rounds.flatMap (·.2))) := by
    simp only [coarse, hca, hcb, mapM_trimmed hchunks hta, mapM_trimmed hchunks' htb,
      Option.bind_eq_bind, Option.bind_some]
    rfl
  refine ⟨ca, cb, ?_⟩
  rw [hcoarse]
  by_cases hlarge : ca.length * cb.length > 4000000
  · rw [if_pos hlarge]
    refine ⟨_, hca, hcb, rfl, ⟨[], [], span_marks hta, span_marks htb, rfl⟩,
      iff_of_false (fun h => ?_) fun h => by omega⟩
    exact span_ne_nil hta htb hne (Prod.mk.inj h).1 (Prod.mk.inj h).2
  · rw [if_neg hlarge]
    have hsmall : (ca.map (trimOf old)).length * (cb.map (trimOf new)).length ≤ 4000000 := by
      simpa using hlarge
    obtain ⟨gs, hgs, hgaps⟩ := exists_gaps (lcs_opposed hsmall)
    obtain ⟨rounds, hrounds, ⟨k, l, hk, hl, hspace⟩, hnil⟩ :=
      rounds_marks noisy limit hgaps hchunks hchunks' rfl rfl (Nat.zero_le _) (Nat.zero_le _)
        hta htb
    refine ⟨_, hca, hcb, by rw [hgs, Option.bind_some, hrounds]; rfl,
      ⟨k, l, coalesce_marks hk, coalesce_marks hl, hspace⟩, ?_⟩
    rw [Prod.mk.injEq, coalesce_eq_nil_iff, coalesce_eq_nil_iff]
    constructor
    · rintro ⟨hleft, hright⟩
      exact ⟨Nat.le_of_not_lt hlarge, hgaps.map_eq (hnil hleft hright)⟩
    · rintro ⟨-, heq⟩
      -- All sentences are matched, so no round has any.
      have hself : Alignment (fun s t => s = [] ∧ t = []) 0 0 (ca.map (trimOf old))
          (cb.map (trimOf new)) (lcs (ca.map (trimOf old)) (cb.map (trimOf new))) := by
        rw [← heq]
        exact lcs_self _
      obtain ⟨gs', hgs', hempty⟩ := exists_gaps hself
      obtain rfl : gs' = gs := Option.some.inj (hgs'.symm.trans hgs)
      rw [rounds_nil hempty.eq_nil] at hrounds
      obtain rfl := Option.some.inj hrounds
      simp

end Coarse

/-! ## The shared beginning and end -/

section Middle

variable {old new : List Char} {ta tb a b begun begun' rest rest' : List Span} {p q : Nat}

/-- Both begin, and they begin with different texts, or one of them does not begin. -/
def Differ (old new : List Char) (a b : List Span) : Prop :=
  ∀ x ∈ a.head?, ∀ y ∈ b.head?, textOf old x ≠ textOf new y

/-- `a` and `b` are what is left of the tokens without the longest shared beginning, and then without
the longest shared end. -/
def Middle (old new : List Char) (ta tb a b : List Span) : Prop :=
  ∃ begun begun' ended ended', ta = begun ++ (a ++ ended) ∧ tb = begun' ++ (b ++ ended') ∧
    begun.map (textOf old) = begun'.map (textOf new) ∧
    ended.map (textOf old) = ended'.map (textOf new) ∧
    Differ old new (a ++ ended) (b ++ ended') ∧ Differ old new a.reverse b.reverse

theorem exists_shared (old new : List Char) (a b : List Span) :
    ∃ begun rest begun' rest', a = begun ++ rest ∧ b = begun' ++ rest' ∧
      begun.map (textOf old) = begun'.map (textOf new) ∧ Differ old new rest rest' := by
  induction a generalizing b with
  | nil => exact ⟨[], [], [], b, rfl, rfl, rfl, by simp [Differ]⟩
  | cons x a ih =>
    cases b with
    | nil => exact ⟨[], x :: a, [], [], rfl, rfl, rfl, by simp [Differ]⟩
    | cons y b =>
      by_cases hxy : textOf old x = textOf new y
      · obtain ⟨begun, rest, begun', rest', rfl, rfl, heq, hdiffer⟩ := ih b
        exact ⟨x :: begun, rest, y :: begun', rest', rfl, rfl, by simp [hxy, heq], hdiffer⟩
      · exact ⟨[], x :: a, [], y :: b, rfl, rfl, rfl, by simpa [Differ] using hxy⟩

theorem exists_middle (old new : List Char) (ta tb : List Span) :
    ∃ a b, Middle old new ta tb a b := by
  obtain ⟨begun, rest, begun', rest', rfl, rfl, hbegun, hdiffer⟩ := exists_shared old new ta tb
  obtain ⟨ended, a, ended', b, ha, hb, hended, hlast⟩ :=
    exists_shared old new rest.reverse rest'.reverse
  obtain rfl : rest = a.reverse ++ ended.reverse := by
    rw [← List.reverse_append, ← ha, List.reverse_reverse]
  obtain rfl : rest' = b.reverse ++ ended'.reverse := by
    rw [← List.reverse_append, ← hb, List.reverse_reverse]
  refine ⟨a.reverse, b.reverse, begun, begun', ended.reverse, ended'.reverse, rfl, rfl, hbegun, ?_,
    hdiffer, ?_⟩
  · rw [List.map_reverse, List.map_reverse, hended]
  · rwa [List.reverse_reverse, List.reverse_reverse]

theorem shared_eq (ha : ∀ r ∈ begun ++ rest, slice old r = some (textOf old r))
    (hb : ∀ r ∈ begun' ++ rest', slice new r = some (textOf new r))
    (heq : begun.map (textOf old) = begun'.map (textOf new)) (hdiffer : Differ old new rest rest') :
    shared old new (begun ++ rest) (begun' ++ rest') = some begun.length := by
  induction begun generalizing begun' with
  | nil =>
    obtain rfl : begun' = [] := List.map_eq_nil_iff.mp heq.symm
    cases rest with
    | nil => rfl
    | cons x rest =>
      cases rest' with
      | nil => rfl
      | cons y rest' =>
        have hx := ha x (by simp)
        have hy := hb y (by simp)
        have hne : textOf old x ≠ textOf new y := hdiffer x (by simp) y (by simp)
        simp [shared, hx, hy, hne]
  | cons x begun ih =>
    obtain ⟨y, begun', rfl, hxy, heq'⟩ := List.map_eq_cons_iff.mp heq.symm
    have hx := ha x (by simp)
    have hy := hb y (by simp)
    have hrest := ih (fun r hr => ha r (List.mem_cons_of_mem x hr))
      (fun r hr => hb r (List.mem_cons_of_mem y hr)) heq'.symm
    simp [shared, hx, hy, hxy, hrest]

theorem middle_eq (hta : Tiles old p ta) (htb : Tiles new q tb) (h : Middle old new ta tb a b) :
    middle old new ta tb = some (a, b) := by
  obtain ⟨begun, begun', ended, ended', rfl, rfl, hbegun, hended, hdiffer, hlast⟩ := h
  have hslice := fun r (hr : r ∈ begun ++ (a ++ ended)) => hta.slice_eq hr
  have hslice' := fun r (hr : r ∈ begun' ++ (b ++ ended')) => htb.slice_eq hr
  have hlen : begun'.length = begun.length := by simpa using (congrArg List.length hbegun).symm
  have hlen' : ended'.length = ended.length := by simpa using (congrArg List.length hended).symm
  have hfirst := shared_eq hslice hslice' hbegun hdiffer
  have hend : shared old new (a ++ ended).reverse (b ++ ended').reverse = some ended.length := by
    have hreverse : ended.reverse.map (textOf old) = ended'.reverse.map (textOf new) := by
      rw [List.map_reverse, List.map_reverse, hended]
    have := @shared_eq old new ended.reverse ended'.reverse a.reverse b.reverse
      (fun r hr => hslice r (by simp at hr; simp; tauto))
      (fun r hr => hslice' r (by simp at hr; simp; tauto)) hreverse hlast
    simpa using this
  have hdrop : (begun ++ (a ++ ended)).drop begun.length = a ++ ended := List.drop_left
  have hdrop' : (begun' ++ (b ++ ended')).drop begun.length = b ++ ended' := by
    rw [← hlen]
    exact List.drop_left
  have hsub := sub_drop hdrop (by simp)
  have hsub' := sub_drop hdrop' (by simp [hlen])
  have hstop : (begun ++ (a ++ ended)).length - ended.length = begun.length + a.length := by
    simp only [List.length_append]
    omega
  have hstop' : (begun' ++ (b ++ ended')).length - ended.length = begun.length + b.length := by
    simp only [List.length_append]
    omega
  simp only [middle, hfirst, Option.bind_eq_bind, Option.bind_some, hdrop, hdrop', hend, hstop,
    hstop', hsub, hsub']
  rfl

/-- Marks of the middle are marks of the whole. -/
theorem Middle.marks (h : Middle old new ta tb a b) (hta : Tiles old 0 ta) (htb : Tiles new 0 tb) :
    ∃ p q, Tiles old p a ∧ Tiles new q b ∧ ∀ ra rb k l, Marks p (flat old a) ra k →
      Marks q (flat new b) rb l → withoutSpace k = withoutSpace l →
      ∃ k' l', Marks 0 (flat old ta) ra k' ∧ Marks 0 (flat new tb) rb l' ∧
        withoutSpace k' = withoutSpace l' := by
  obtain ⟨begun, begun', ended, ended', rfl, rfl, hbegun, hended, -, -⟩ := h
  have hbegun : flat old begun = flat new begun' := congrArg List.flatten hbegun
  have hended : flat old ended = flat new ended' := congrArg List.flatten hended
  rw [tiles_append, tiles_append] at hta htb
  refine ⟨_, _, hta.2.1, htb.2.1, fun ra rb k l hk hl hspace =>
    ⟨flat old begun ++ (k ++ flat old ended), flat new begun' ++ (l ++ flat new ended'), ?_, ?_, ?_⟩⟩
  · have := (Marks.none 0 (flat old begun)).append (hk.append (Marks.none _ (flat old ended)))
    simpa using this
  · have := (Marks.none 0 (flat new begun')).append (hl.append (Marks.none _ (flat new ended')))
    simpa using this
  · simp only [withoutSpace_append, hbegun, hended, hspace]

/-- Nothing is left where what is left has the same texts. -/
theorem Middle.eq_nil (h : Middle old new ta tb a b)
    (heq : a.map (textOf old) = b.map (textOf new)) : a = [] ∧ b = [] := by
  obtain ⟨-, -, -, -, -, -, -, -, -, hlast⟩ := h
  rcases List.eq_nil_or_concat a with rfl | ⟨a, x, rfl⟩
  · exact ⟨rfl, List.map_eq_nil_iff.mp heq.symm⟩
  rcases List.eq_nil_or_concat b with rfl | ⟨b, y, rfl⟩
  · simp at heq
  · simp only [List.concat_eq_append, List.map_append, List.map_cons, List.map_nil] at heq
    have hxy := (List.append_inj_right' heq rfl)
    exact absurd (List.cons.inj hxy).1 (hlast x (by simp) y (by simp))

theorem Middle.ne_nil (h : Middle old new ta tb a b) (hne : flat old ta ≠ flat new tb) :
    a ≠ [] ∨ b ≠ [] := by
  by_contra hnil
  rw [not_or, not_not, not_not] at hnil
  obtain ⟨rfl, rfl⟩ := hnil
  obtain ⟨begun, begun', ended, ended', rfl, rfl, hbegun, hended, -, -⟩ := h
  have hbegun : flat old begun = flat new begun' := congrArg List.flatten hbegun
  have hended : flat old ended = flat new ended' := congrArg List.flatten hended
  exact hne (by simp [hbegun, hended])

end Middle

/-! ## Prose marks -/

theorem byteLen_trimEnd (s : String) : byteLen (trimEnd s).toList ≤ byteLen s.toList := by
  obtain ⟨t, ht⟩ := List.rdropWhile_prefix isWhitespace s.toList
  have hlen := congrArg byteLen ht
  rw [byteLen_append] at hlen
  rw [trimEnd, String.toList_ofList]
  omega

section Prose

variable {alphanumeric : Char → Bool} {noisy : Nat → Nat → Bool} {old new : List Char} {limit : Nat}

/-- The texts differ in the white space around sentences only: too many tokens are left for a single
pass, and the sentences of both sides are the same without it. -/
def Absorbed (alphanumeric : Char → Bool) (old new : List Char) (limit : Nat) : Prop :=
  ∃ ta tb a b ca cb, tokens alphanumeric old usizeMax = some ta ∧
    tokens alphanumeric new usizeMax = some tb ∧ Middle old new ta tb a b ∧
    (limit < a.length ∨ limit < b.length) ∧ sentences old a = some ca ∧ sentences new b = some cb ∧
    ca.length * cb.length ≤ 4000000 ∧ ca.map (trimOf old) = cb.map (trimOf new)

/-- **The marks of prose**, and when there are none although the texts differ. -/
theorem markProse_marks (noisy : Nat → Nat → Bool) (limit : Nat) {ta tb : List Span}
    (hta : tokens alphanumeric old usizeMax = some ta)
    (htb : tokens alphanumeric new usizeMax = some tb) :
    ∃ marks, markProse alphanumeric noisy old new limit = some marks ∧
      (∃ k l, Marks 0 old marks.1 k ∧ Marks 0 new marks.2 l ∧ withoutSpace k = withoutSpace l) ∧
      (old ≠ new → (marks = ([], []) ↔ Absorbed alphanumeric old new limit)) := by
  obtain ⟨htiles, hflat⟩ := tokens_tiles hta
  obtain ⟨htiles', hflat'⟩ := tokens_tiles htb
  obtain ⟨a, b, hmiddle⟩ := exists_middle old new ta tb
  obtain ⟨p, q, ha, hb, hwhole⟩ := hmiddle.marks htiles htiles'
  rw [hflat, hflat'] at hwhole
  -- What `Absorbed` says of the one middle there is.
  have habsorbed : Absorbed alphanumeric old new limit ↔ (limit < a.length ∨ limit < b.length) ∧
      ∃ ca cb, sentences old a = some ca ∧ sentences new b = some cb ∧
        ca.length * cb.length ≤ 4000000 ∧ ca.map (trimOf old) = cb.map (trimOf new) := by
    constructor
    · rintro ⟨ta', tb', a', b', ca, cb, hta', htb', hmiddle', hlimit, hrest⟩
      obtain rfl := Option.some.inj (hta.symm.trans hta')
      obtain rfl := Option.some.inj (htb.symm.trans htb')
      have heq := (middle_eq htiles htiles' hmiddle).symm.trans (middle_eq htiles htiles' hmiddle')
      obtain ⟨rfl, rfl⟩ := Prod.mk.inj (Option.some.inj heq)
      exact ⟨hlimit, ca, cb, hrest⟩
    · rintro ⟨hlimit, ca, cb, hrest⟩
      exact ⟨ta, tb, a, b, ca, cb, hta, htb, hmiddle, hlimit, hrest⟩
  have hprose : markProse alphanumeric noisy old new limit =
      if a = [] ∧ b = [] then some ([], [])
      else if a.length ≤ limit ∧ b.length ≤ limit then
        (fine noisy old new a b).map (·.getD (span a, span b))
      else coarse noisy old new limit a b := by
    simp only [markProse, hta, htb, middle_eq htiles htiles' hmiddle, Option.bind_eq_bind,
      Option.bind_some]
    cases fine noisy old new a b <;> rfl
  rw [hprose, habsorbed]
  split
  · rename_i hnil
    obtain ⟨rfl, rfl⟩ := hnil
    obtain ⟨k, l, hmarks⟩ := hwhole [] [] [] [] (.nil p) (.nil q) rfl
    refine ⟨_, rfl, ⟨k, l, hmarks⟩, fun hne => ?_⟩
    rw [← hflat, ← hflat'] at hne
    simpa using hmiddle.ne_nil hne
  rename_i hleft
  have hne : a ≠ [] ∨ b ≠ [] := not_and_or.mp hleft
  split
  · rename_i hfew
    have hmany : ¬ (limit < a.length ∨ limit < b.length) := by omega
    obtain ⟨marks, hfine, hmarks⟩ := fine_marks noisy ha hb
    rw [hfine]
    cases marks with
    | none =>
      refine ⟨_, rfl, hwhole _ _ [] [] (span_marks ha) (span_marks hb) rfl, fun _ => ?_⟩
      refine iff_of_false (fun h => ?_) fun h => hmany h.1
      exact span_ne_nil ha hb hne (Prod.mk.inj h).1 (Prod.mk.inj h).2
    | some marks =>
      obtain ⟨⟨k, hk, hk'⟩, heq⟩ := hmarks marks.1 marks.2 rfl
      refine ⟨marks, rfl, hwhole _ _ k k hk hk' rfl, fun _ => ?_⟩
      refine iff_of_false (fun h => ?_) fun h => hmany h.1
      exact hleft (hmiddle.eq_nil (heq (congrArg Prod.fst h) (congrArg Prod.snd h)))
  · rename_i hfew
    have hmany : limit < a.length ∨ limit < b.length := by omega
    obtain ⟨ca, cb, marks, hca, hcb, hcoarse, ⟨k, l, hk, hl, hspace⟩, hiff⟩ :=
      coarse_marks noisy limit ha hb hne
    refine ⟨marks, hcoarse, hwhole _ _ k l hk hl hspace, fun _ => ?_⟩
    rw [hiff]
    constructor
    · exact fun h => ⟨hmany, ca, cb, hca, hcb, h⟩
    · rintro ⟨-, ca', cb', hca', hcb', h⟩
      obtain rfl := Option.some.inj (hca.symm.trans hca')
      obtain rfl := Option.some.inj (hcb.symm.trans hcb')
      exact h

end Prose

section WordDiffWith

variable {old new : String} {bytes limit : Nat}

theorem wordDiffWith_marks (alphanumeric : Char → Bool) (noisy : Nat → Nat → Bool) (limit : Nat)
    (hold : byteLen old.toList ≤ bytes) (hnew : byteLen new.toList ≤ bytes)
    (hbytes : bytes ≤ usizeMax) :
    ∃ marks, wordDiffWith alphanumeric noisy old new bytes limit = some marks ∧
      (∃ k l, Marks 0 (trimEnd old).toList marks.1 k ∧ Marks 0 (trimEnd new).toList marks.2 l ∧
        withoutSpace k = withoutSpace l) ∧
      (trimEnd old ≠ trimEnd new → (marks = ([], []) ↔
        Absorbed alphanumeric (trimEnd old).toList (trimEnd new).toList limit)) := by
  have hnot : ¬ (byteLen old.toList > bytes ∨ byteLen new.toList > bytes) := by omega
  have hlen := byteLen_trimEnd old
  have hlen' := byteLen_trimEnd new
  obtain ⟨ta, hta⟩ := @exists_tokensFrom alphanumeric usizeMax 0 0 (trimEnd old).toList (by omega)
  obtain ⟨tb, htb⟩ := @exists_tokensFrom alphanumeric usizeMax 0 0 (trimEnd new).toList (by omega)
  obtain ⟨marks, hmarks, hsound, hiff⟩ := markProse_marks noisy limit hta htb
  rw [wordDiffWith, if_neg hnot]
  exact ⟨marks, hmarks, hsound, fun hne => hiff fun heq => hne (String.toList_inj.mp heq)⟩

/-- **Prose marks are sound.** No slice or index of `word_diff_with` fails, whichever way it goes.
Its spans are ordered, apart, not empty, in bounds and on character boundaries of the texts without
the white space at their ends, and what they leave of these differs in white space only. -/
theorem wordDiffWith_sound (alphanumeric : Char → Bool) (noisy : Nat → Nat → Bool) (limit : Nat)
    (hold : byteLen old.toList ≤ bytes) (hnew : byteLen new.toList ≤ bytes)
    (hbytes : bytes ≤ usizeMax) :
    ∃ ra rb, wordDiffWith alphanumeric noisy old new bytes limit = some (ra, rb) ∧
      Ordered (trimEnd old).toList ra ∧ Ordered (trimEnd new).toList rb ∧
      withoutSpace (unmarked ra 0 (trimEnd old).toList) =
        withoutSpace (unmarked rb 0 (trimEnd new).toList) := by
  obtain ⟨marks, hmarks, ⟨k, l, hk, hl, hspace⟩, -⟩ :=
    wordDiffWith_marks alphanumeric noisy limit hold hnew hbytes
  refine ⟨marks.1, marks.2, hmarks, .of_marks hk, .of_marks hl, ?_⟩
  rw [hk.unmarked_eq, hl.unmarked_eq, hspace]

/-- More than seven tenths. -/
def mostly (changed len : Nat) : Bool := decide (7 * len < 10 * changed)

/-- Two of three sentences stay. -/
theorem sentences_sound : ∃ ra rb,
    wordDiffWith Char.isAlphanum mostly "A b. C d. E é." "A b. X. E y. " 100 1 = some (ra, rb) ∧
      Ordered (trimEnd "A b. C d. E é.").toList ra ∧ Ordered (trimEnd "A b. X. E y. ").toList rb ∧
      withoutSpace (unmarked ra 0 (trimEnd "A b. C d. E é.").toList) =
        withoutSpace (unmarked rb 0 (trimEnd "A b. X. E y. ").toList) :=
  wordDiffWith_sound Char.isAlphanum mostly 1 (by decide) (by decide) (by decide)

/-- **When differing prose is marked.** Texts that differ get a mark unless the difference is
absorbed by the comparison of trimmed sentences. -/
theorem wordDiffWith_marked_iff (alphanumeric : Char → Bool) (noisy : Nat → Nat → Bool)
    (limit : Nat) (hold : byteLen old.toList ≤ bytes) (hnew : byteLen new.toList ≤ bytes)
    (hbytes : bytes ≤ usizeMax) (hne : trimEnd old ≠ trimEnd new) :
    ∃ ra rb, wordDiffWith alphanumeric noisy old new bytes limit = some (ra, rb) ∧
      ((ra ≠ [] ∨ rb ≠ []) ↔
        ¬ Absorbed alphanumeric (trimEnd old).toList (trimEnd new).toList limit) := by
  obtain ⟨marks, hmarks, -, hiff⟩ := wordDiffWith_marks alphanumeric noisy limit hold hnew hbytes
  refine ⟨marks.1, marks.2, hmarks, ?_⟩
  rw [← hiff hne, ← not_and_or, Prod.ext_iff]

theorem word_marked : ∃ ra rb, wordDiffWith Char.isAlphanum mostly "a b" "a c" 100 3 =
    some (ra, rb) ∧ ((ra ≠ [] ∨ rb ≠ []) ↔
      ¬ Absorbed Char.isAlphanum (trimEnd "a b").toList (trimEnd "a c").toList 3) :=
  wordDiffWith_marked_iff Char.isAlphanum mostly 3 (by decide) (by decide) (by decide) (by decide)

/-- One of two spaces between sentences is removed. -/
theorem space_absorbed : byteLen "A.  B.".toList ≤ 100 ∧ byteLen "A. B.".toList ≤ 100 ∧
    trimEnd "A.  B." ≠ trimEnd "A. B." ∧
    wordDiffWith Char.isAlphanum mostly "A.  B." "A. B." 100 0 = some ([], []) := by
  refine ⟨by decide, by decide, by decide, by decide +kernel⟩

end WordDiffWith

end Inline
end Proof
end Diffz
