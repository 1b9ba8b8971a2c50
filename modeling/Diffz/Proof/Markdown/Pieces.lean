import Mathlib.Data.List.Pairwise
import Diffz.Core.Markdown
import Diffz.Lib.Search

/-!
# How a body is read

A body has one reading in pieces: its code, its comments, its image tags and the characters between
them.
-/

set_option autoImplicit false

namespace Diffz
namespace Proof
namespace Markdown

open Diffz.Markdown

variable {body rest line l : List Char} {code : List (Nat × Nat)} {pos : Nat}

/-! ## Lines -/

theorem find_eq_some {p l : List Char} {i : Nat} (hp : p ≠ []) (h : find p l = some i) :
    ∃ a b, l = a ++ p ++ b ∧ ¬ p <:+: a ++ p.dropLast ∧ i = a.length := by
  obtain ⟨⟨a, b⟩, hab, rfl⟩ := Option.map_eq_some_iff.1 h
  obtain ⟨hl, hfirst⟩ := (splitOnce_eq_some_iff hp).1 hab
  exact ⟨a, b, hl, hfirst, rfl⟩

theorem find_eq_none {p l : List Char} (hp : p ≠ []) : find p l = none ↔ ¬ p <:+: l := by
  rw [find, Option.map_eq_none_iff, splitOnce_eq_none_iff hp]

theorem find_char_eq_some {c : Char} {l : List Char} {i : Nat} (h : find [c] l = some i) :
    ∃ a b, l = a ++ c :: b ∧ c ∉ a ∧ i = a.length := by
  obtain ⟨a, b, hl, hfirst, hi⟩ := find_eq_some (List.cons_ne_nil _ _) h
  refine ⟨a, b, by simpa using hl, fun hc => hfirst ?_, hi⟩
  rw [List.singleton_infix_iff]
  exact List.mem_append_left _ hc

theorem find_char_eq_none {c : Char} {l : List Char} : find [c] l = none ↔ c ∉ l := by
  rw [find_eq_none (List.cons_ne_nil _ _), List.singleton_infix_iff]

/-- The rest of a line, with its line feed if it has one. -/
structure IsLine (rest line after : List Char) : Prop where
  split : rest = line ++ after
  ends : ('\n' ∉ line ∧ after = []) ∨ ∃ front, line = front ++ ['\n'] ∧ '\n' ∉ front

theorem lineEndAt_spec (body : List Char) (pos : Nat) (hpos : pos < body.length) :
    ∃ line after, IsLine (body.drop pos) line after ∧ lineEndAt body pos = pos + line.length ∧
      0 < line.length := by
  cases h : find ['\n'] (body.drop pos) with
  | some i =>
    obtain ⟨a, b, hl, ha, rfl⟩ := find_char_eq_some h
    refine ⟨a ++ ['\n'], b, ⟨by simpa using hl, .inr ⟨a, rfl, ha⟩⟩, ?_, by simp⟩
    rw [lineEndAt, h]
    simp
    omega
  | none =>
    refine ⟨body.drop pos, [], ⟨by simp, .inl ⟨find_char_eq_none.1 h, rfl⟩⟩, ?_, ?_⟩
    · rw [lineEndAt, h]
      simp
      omega
    · simpa using Nat.sub_pos_of_lt hpos

theorem between_drop {line after : List Char} (h : body.drop pos = line ++ after) :
    between body pos (pos + line.length) = line := by
  rw [between, List.drop_take, Nat.add_sub_cancel_left, h, List.take_left]

/-- Inside of a line it ends where it ends. -/
theorem lineEndAt_inside {k : Nat} (hpos : pos < body.length) (hk : pos ≤ k)
    (hlt : k < lineEndAt body pos) : lineEndAt body k = lineEndAt body pos := by
  obtain ⟨line, after, ⟨hsplit, hends⟩, hend, -⟩ := lineEndAt_spec body pos hpos
  rw [hend] at hlt ⊢
  obtain ⟨j, rfl⟩ := Nat.exists_eq_add_of_le hk
  have hj : j < line.length := by omega
  have hdrop : body.drop (pos + j) = line.drop j ++ after := by
    rw [← List.drop_drop, hsplit, List.drop_append_of_le_length hj.le]
  have hbody : body.length = pos + line.length + after.length := by
    have := congrArg List.length hsplit
    simp only [List.length_drop, List.length_append] at this
    omega
  rcases hends with ⟨hno, rfl⟩ | ⟨front, rfl, hfront⟩
  · have hnone : find ['\n'] (body.drop (pos + j)) = none := by
      rw [find_char_eq_none, hdrop, List.append_nil]
      exact fun hmem => hno (List.mem_of_mem_drop hmem)
    rw [lineEndAt, hnone]
    simpa using hbody
  · have hj' : j ≤ front.length := by simp at hj; omega
    have hfind : find ['\n'] (body.drop (pos + j)) = some (front.length - j) := by
      rw [hdrop, List.drop_append_of_le_length hj', List.append_assoc, find]
      rw [show ['\n'] ++ after = '\n' :: after from rfl,
        splitOnce_singleton fun hmem => hfront (List.mem_of_mem_drop hmem)]
      simp
    rw [lineEndAt, hfind]
    simp
    omega

namespace IsLine

variable {after : List Char}

/-- A line feed is the last character. -/
theorem lf_last (h : IsLine rest line after) {x y : List Char} (hline : line = x ++ y)
    (hy : y ≠ []) : '\n' ∉ x := by
  rcases h.ends with ⟨hno, -⟩ | ⟨front, hfront, hno⟩
  · exact fun hmem => hno (hline ▸ List.mem_append_left y hmem)
  · rcases List.eq_nil_or_concat y with rfl | ⟨y', c, rfl⟩
    · exact absurd rfl hy
    · rw [hfront, List.concat_eq_append, ← List.append_assoc] at hline
      have hinit := (List.append_inj' hline rfl).1
      exact fun hmem => hno (hinit ▸ List.mem_append_left y' hmem)

/-- What has no line feed and stands where a line begins, stands in the line. -/
theorem prefix_iff (h : IsLine rest line after) {p : List Char} (hp : '\n' ∉ p) :
    p <+: rest ↔ p <+: line := by
  constructor
  · intro hpre
    rcases h.ends with ⟨-, hnil⟩ | ⟨front, hfront, -⟩
    · rwa [h.split, hnil, List.append_nil] at hpre
    · rcases List.prefix_or_prefix_of_prefix hpre (h.split ▸ List.prefix_append line after) with
        hpre | hpre
      · exact hpre
      · exact absurd (hpre.subset (hfront ▸ by simp)) hp
  · intro hpre
    rw [h.split]
    exact hpre.trans (List.prefix_append line after)

theorem opensImage_iff (l : List Char) : opensImage l = true ↔
    ∃ tag, tag <+: l ∧ tag.map Char.toLower = "<img".toList := by
  rw [opensImage, decide_eq_true_eq]
  constructor
  · exact fun h => ⟨l.take 4, List.take_prefix 4 l, h⟩
  · rintro ⟨tag, ⟨t, rfl⟩, h⟩
    have hlen : tag.length = 4 := by simpa using congrArg List.length h
    rw [← hlen, List.take_left, h]

theorem opensImage_eq (h : IsLine rest line after) : opensImage rest = opensImage line := by
  rw [Bool.eq_iff_iff, opensImage_iff, opensImage_iff]
  refine exists_congr fun tag => and_congr_left fun htag => h.prefix_iff fun hlf => ?_
  have hmem := List.mem_map_of_mem (f := Char.toLower) hlf
  rw [htag] at hmem
  revert hmem
  decide

/-- The end of a comment does not straddle two lines. -/
theorem not_close (h : IsLine rest line after) (hline : ¬ "-->".toList <:+: line)
    {next : List Char} (hafter : ¬ "-->".toList <:+: next) (hnext : after = [] → next = []) :
    ¬ "-->".toList <:+: line ++ next := by
  intro hin
  rcases infix_append_cases hin with hin | hin | ⟨k, hk, hlt, hsuf, hpre⟩
  · exact hline hin
  · exact hafter hin
  · rcases h.ends with ⟨-, hnil⟩ | ⟨front, rfl, -⟩
    · rw [hnext hnil, List.prefix_nil] at hpre
      have hlen := congrArg List.length hpre
      rw [List.length_drop, List.length_nil] at hlen
      omega
    · -- A part of the end would have the line feed.
      obtain ⟨x, hx⟩ := hsuf
      have hlast : ("-->".toList.take k).getLast? = some '\n' := by
        have hne : "-->".toList.take k ≠ [] := by
          intro hnil
          have hlen := congrArg List.length hnil
          rw [List.length_take, List.length_nil] at hlen
          have : "-->".toList.length = 3 := rfl
          omega
        have hl := congrArg List.getLast? hx
        rwa [List.getLast?_append_of_ne_nil _ hne, List.getLast?_concat] at hl
      have hmem := List.mem_of_mem_take (List.mem_of_getLast? hlast)
      revert hmem
      decide

end IsLine

/-! ## Pieces -/

inductive Kind
  | code
  | text
  | image
  | cut
  | hidden
deriving DecidableEq

/-- A piece of the body. -/
structure Piece where
  kind : Kind
  start : Nat
  stop : Nat

/-- The pieces follow each other from `start` to `stop`. -/
inductive Tiles : Nat → Nat → List Piece → Prop
  | nil {q : Nat} : Tiles q q []
  | cons {p : Piece} {q : Nat} {ps : List Piece} (h : p.start < p.stop) (rest : Tiles p.stop q ps) :
      Tiles p.start q (p :: ps)

/-- What a piece is made of. An image tag ends in its line, and where it does not, the rest of the
line is cut; a comment ends anywhere. Only code begins where code begins. -/
inductive Fits (body : List Char) (code : List (Nat × Nat)) : Piece → Prop
  | code {r : Nat × Nat} (h : r ∈ code) : Fits body code ⟨.code, r.1, r.2⟩
  | text {pos : Nat} (hcode : ∀ r ∈ code, r.1 ≠ pos) (hcomment : ¬ "<!--".toList <+: body.drop pos)
      (himage : opensImage (body.drop pos) = false) : Fits body code ⟨.text, pos, pos + 1⟩
  | image {pos : Nat} {tag after : List Char} (hcode : ∀ r ∈ code, r.1 ≠ pos)
      (himage : opensImage (body.drop pos) = true) (hrest : body.drop pos = tag ++ '>' :: after)
      (hopen : '>' ∉ tag) (hline : '\n' ∉ tag) : Fits body code ⟨.image, pos, pos + tag.length + 1⟩
  | cut {pos : Nat} {line after : List Char} (hcode : ∀ r ∈ code, r.1 ≠ pos)
      (himage : opensImage (body.drop pos) = true) (hline : IsLine (body.drop pos) line after)
      (hopen : '>' ∉ line) : Fits body code ⟨.cut, pos, pos + line.length⟩
  | hidden {pos : Nat} {inside after : List Char} (hcode : ∀ r ∈ code, r.1 ≠ pos)
      (hrest : body.drop pos = "<!--".toList ++ inside ++ "-->".toList ++ after)
      (hfirst : ¬ "-->".toList <:+: inside ++ "--".toList) :
      Fits body code ⟨.hidden, pos, pos + 4 + inside.length + 3⟩
  | unclosed {pos : Nat} {inside : List Char} (hcode : ∀ r ∈ code, r.1 ≠ pos)
      (hrest : body.drop pos = "<!--".toList ++ inside) (hopen : ¬ "-->".toList <:+: inside) :
      Fits body code ⟨.hidden, pos, body.length⟩

/-- The ranges are in order, apart and in the body, and none is empty. -/
structure Ranges (body : List Char) (code : List (Nat × Nat)) : Prop where
  proper : ∀ r ∈ code, r.1 < r.2 ∧ r.2 ≤ body.length
  apart : code.Pairwise fun r r' => r.2 ≤ r'.1

/-! ## One reading -/

theorem Ranges.eq_of_start (hr : Ranges body code) {r r' : Nat × Nat} (h : r ∈ code)
    (h' : r' ∈ code) (hstart : r.1 = r'.1) : r = r' := by
  have hpairs : code.Pairwise fun r r' => r.1 = r'.1 → r = r' :=
    List.Pairwise.imp_of_mem (fun ha _ hapart heq => by
      have := (hr.proper _ ha).1
      omega) hr.apart
  have hflip : code.Pairwise (flip fun r r' => r.1 = r'.1 → r = r') :=
    hpairs.imp fun hpair heq => (hpair heq.symm).symm
  exact List.Pairwise.forall_of_forall_of_flip (fun _ _ _ => rfl) hpairs hflip h h' hstart

/-- What comes one after the other does not begin in each other. -/
theorem start_outside {α : Type} {l : List α} {start stop : α → Nat}
    (hproper : ∀ a ∈ l, start a < stop a) (hapart : l.Pairwise fun a b => stop a ≤ start b)
    {a b : α} (ha : a ∈ l) (hb : b ∈ l) (hlt : start a < start b) : stop a ≤ start b := by
  have hpairs : l.Pairwise fun a b => start a < start b → stop a ≤ start b := by
    refine hapart.imp ?_
    intro _ _ hle _
    exact hle
  have hflip : l.Pairwise (flip fun a b => start a < start b → stop a ≤ start b) :=
    List.Pairwise.imp_of_mem (fun ha _ hapart heq => by
      have := hproper _ ha
      omega) hapart
  exact List.Pairwise.forall_of_forall_of_flip (fun _ _ hlt => absurd hlt (Nat.lt_irrefl _)) hpairs
    hflip ha hb hlt

theorem opensImage_comment (h : "<!--".toList <+: l) : opensImage l = false := by
  obtain ⟨t, rfl⟩ := h
  rw [opensImage, show ("<!--".toList ++ t).take 4 = "<!--".toList from rfl]
  decide

/-- A comment ends once. -/
theorem first_unique {a a' b b' : List Char} (h : l = a ++ "-->".toList ++ b)
    (hfirst : ¬ "-->".toList <:+: a ++ "--".toList) (h' : l = a' ++ "-->".toList ++ b')
    (hfirst' : ¬ "-->".toList <:+: a' ++ "--".toList) : a = a' := by
  have hfind := (splitOnce_eq_some_iff (by decide)).2 ⟨h, hfirst⟩
  have hfind' := (splitOnce_eq_some_iff (by decide)).2 ⟨h', hfirst'⟩
  exact (Prod.mk.inj (Option.some.inj (hfind.symm.trans hfind'))).1

namespace IsLine

variable {after line' after' : List Char}

/-- What has no line feed and ends before a `>` is in the line with it. -/
theorem mem_of_tag (h : IsLine rest line after) {tag more : List Char}
    (hrest : rest = tag ++ '>' :: more) (hlf : '\n' ∉ tag) : '>' ∈ line := by
  have hpre : tag ++ ['>'] <+: line := by
    refine (h.prefix_iff fun hmem => ?_).1 ⟨more, by rw [hrest]; simp⟩
    rcases List.mem_append.1 hmem with hmem | hmem
    · exact hlf hmem
    · simp at hmem
  exact hpre.subset (by simp)

theorem unique (h : IsLine rest line after) (h' : IsLine rest line' after') : line = line' := by
  rcases h.ends with ⟨hno, hnil⟩ | ⟨front, hfront, hno⟩
  · rcases h'.ends with ⟨-, hnil'⟩ | ⟨front', hfront', -⟩
    · have hsplit := h.split
      rw [h'.split, hnil, hnil', List.append_nil, List.append_nil] at hsplit
      exact hsplit.symm
    · have hsplit := h.split
      rw [h'.split, hnil, List.append_nil, hfront'] at hsplit
      exact absurd (hsplit ▸ by simp) hno
  · have hfind : splitOnce ['\n'] rest = some (front, after) := by
      rw [h.split, hfront, List.append_assoc]
      exact splitOnce_singleton hno
    rcases h'.ends with ⟨hno', hnil'⟩ | ⟨front', hfront', hno'⟩
    · have hsplit := h'.split
      rw [h.split, hnil', List.append_nil, hfront] at hsplit
      exact absurd (hsplit ▸ by simp) hno'
    · have hfind' : splitOnce ['\n'] rest = some (front', after') := by
        rw [h'.split, hfront', List.append_assoc]
        exact splitOnce_singleton hno'
      rw [hfind] at hfind'
      rw [hfront, hfront', (Prod.mk.inj (Option.some.inj hfind')).1]

end IsLine

/-- What begins at a place. -/
def kindAt (body : List Char) (code : List (Nat × Nat)) (pos : Nat) : Kind :=
  if ∃ r ∈ code, r.1 = pos then .code
  else if "<!--".toList <+: body.drop pos then .hidden
  else if opensImage (body.drop pos) then .image
  else .text

/-- An image tag may be cut. -/
def Kind.begins : Kind → Kind
  | .cut => .image
  | kind => kind

theorem Fits.begins {p : Piece} (h : Fits body code p) :
    p.kind.begins = kindAt body code p.start := by
  have hplain : (∀ r ∈ code, r.1 ≠ p.start) → ¬ ∃ r ∈ code, r.1 = p.start :=
    fun hcode ⟨r, hr, hstart⟩ => hcode r hr hstart
  cases h with
  | code h => rw [kindAt, if_pos ⟨_, h, rfl⟩]; rfl
  | text hcode hcomment himage =>
    rw [kindAt, if_neg (hplain hcode), if_neg hcomment, himage]
    rfl
  | image hcode himage | cut hcode himage =>
    have hcomment : ¬ "<!--".toList <+: body.drop _ := fun h => by
      rw [opensImage_comment h] at himage
      cases himage
    rw [kindAt, if_neg (hplain hcode), if_neg hcomment, himage]
    rfl
  | hidden hcode hrest =>
    rw [List.append_assoc, List.append_assoc] at hrest
    rw [kindAt, if_neg (hplain hcode), if_pos ⟨_, hrest.symm⟩]
    rfl
  | unclosed hcode hrest =>
    rw [kindAt, if_neg (hplain hcode), if_pos ⟨_, hrest.symm⟩]
    rfl

/-- There is one piece that fits at a place. -/
theorem Fits.unique (hr : Ranges body code) {p q : Piece} (hp : Fits body code p)
    (hq : Fits body code q) (hstart : p.start = q.start) : p = q := by
  have hkind : p.kind.begins = q.kind.begins := by
    rw [hp.begins, hq.begins, hstart]
  cases hp with
  | code h =>
    cases hq with
    | code h' => rw [hr.eq_of_start h h' hstart]
    | text | image | cut | hidden | unclosed => cases hkind
  | text =>
    cases hq with
    | text => cases hstart; rfl
    | code | image | cut | hidden | unclosed => cases hkind
  | image _ _ hrest hopen hline =>
    cases hq with
    | image _ _ hrest' hopen' =>
      cases hstart
      have hfind := congrArg (splitOnce ['>']) (hrest.symm.trans hrest')
      rw [splitOnce_singleton hopen, splitOnce_singleton hopen'] at hfind
      rw [(Prod.mk.inj (Option.some.inj hfind)).1]
    | cut _ _ hline' hopen' =>
      cases hstart
      exact absurd (hline'.mem_of_tag hrest hline) hopen'
    | code | text | hidden | unclosed => cases hkind
  | cut _ _ hline hopen =>
    cases hq with
    | image _ _ hrest _ hlf =>
      cases hstart
      exact absurd (hline.mem_of_tag hrest hlf) hopen
    | cut _ _ hline' =>
      cases hstart
      rw [hline.unique hline']
    | code | text | hidden | unclosed => cases hkind
  | hidden _ hrest hfirst =>
    cases hq with
    | hidden _ hrest' hfirst' =>
      cases hstart
      have heq := hrest.symm.trans hrest'
      simp only [List.append_assoc, List.append_cancel_left_eq] at heq
      rw [first_unique (List.append_assoc _ _ _).symm hfirst (by rw [heq, List.append_assoc])
        hfirst']
    | unclosed _ hrest' hopen =>
      cases hstart
      simp only [List.append_assoc] at hrest
      rw [hrest, List.append_cancel_left_eq] at hrest'
      exact absurd (hrest' ▸ ⟨_, _, List.append_assoc _ _ _⟩) hopen
    | code | text | image | cut => cases hkind
  | unclosed _ hrest hopen =>
    cases hq with
    | hidden _ hrest' =>
      cases hstart
      simp only [List.append_assoc] at hrest'
      rw [hrest', List.append_cancel_left_eq] at hrest
      exact absurd (hrest ▸ ⟨_, _, List.append_assoc _ _ _⟩) hopen
    | unclosed => cases hstart; rfl
    | code | text | image | cut => cases hkind

/-- The pieces of a body. -/
structure Cover (body : List Char) (code : List (Nat × Nat)) (pieces : List Piece) : Prop where
  tiles : Tiles 0 body.length pieces
  fits : ∀ p ∈ pieces, Fits body code p

theorem Tiles.le {start stop : Nat} {ps : List Piece} (h : Tiles start stop ps) : start ≤ stop := by
  induction h with
  | nil => exact le_rfl
  | cons hlt _ ih => exact hlt.le.trans ih

theorem Tiles.unique (hr : Ranges body code) {start stop : Nat} {ps qs : List Piece}
    (hp : Tiles start stop ps) (hps : ∀ p ∈ ps, Fits body code p)
    (hq : Tiles start stop qs) (hqs : ∀ q ∈ qs, Fits body code q) : ps = qs := by
  induction hp generalizing qs with
  | nil =>
    cases hq with
    | nil => rfl
    | cons hlt rest => exact absurd rest.le (by omega)
  | @cons p stop ps hlt rest ih =>
    generalize hstart : p.start = start at hq
    cases hq with
    | nil => exact absurd rest.le (by omega)
    | @cons q _ qs hlt' rest' =>
      have heq := (hps p List.mem_cons_self).unique hr (hqs q List.mem_cons_self) hstart
      subst heq
      rw [ih (fun p hp => hps p (List.mem_cons_of_mem _ hp)) rest'
        fun q hq => hqs q (List.mem_cons_of_mem _ hq)]

theorem Tiles.bounds {start stop : Nat} {ps : List Piece} (h : Tiles start stop ps) :
    ∀ p ∈ ps, start ≤ p.start ∧ p.start < p.stop ∧ p.stop ≤ stop := by
  induction h with
  | nil => simp
  | cons hlt rest ih =>
    intro p hp
    rcases List.mem_cons.1 hp with rfl | hp
    · exact ⟨le_rfl, hlt, rest.le⟩
    · obtain ⟨hstart, hp⟩ := ih p hp
      exact ⟨by omega, hp⟩

theorem Tiles.apart {start stop : Nat} {ps : List Piece} (h : Tiles start stop ps) :
    ps.Pairwise fun p q => p.stop ≤ q.start := by
  induction h with
  | nil => exact .nil
  | cons hlt rest ih => exact .cons (fun q hq => (rest.bounds q hq).1) ih

theorem Tiles.exists_mem {start stop : Nat} {ps : List Piece} (h : Tiles start stop ps) {pos : Nat}
    (hstart : start ≤ pos) (hstop : pos < stop) : ∃ p ∈ ps, p.start ≤ pos ∧ pos < p.stop := by
  induction h with
  | nil => omega
  | @cons p stop ps hlt rest ih =>
    by_cases hin : pos < p.stop
    · exact ⟨p, List.mem_cons_self, hstart, hin⟩
    · obtain ⟨q, hq, hpos⟩ := ih (by omega) hstop
      exact ⟨q, List.mem_cons_of_mem _ hq, hpos⟩

end Markdown
end Proof
end Diffz
