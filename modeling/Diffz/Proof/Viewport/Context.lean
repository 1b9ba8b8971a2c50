import Diffz.Proof.Viewport.Rows

/-!
# Every source line is shown at most once

Outside the hunks the two documents of a file agree, so the hidden lines between two hunks are as
many on one side as on the other, and one count serves both. The segments are *spaced* when what is
shown below a hunk and above the next one together fit between them; then the numbers on either side
strictly increase down the rows.

A plan is made from the spacing at the time of the request and carried out later. It still fits when
the side it extends shows what it showed then. A hunk that only adds lines names the old line it
follows where the others name their first, so a plan reaching back to such a hunk is one line too
long.
-/

set_option autoImplicit false

namespace Diffz

/-- The number of lines before a hunk on one side; an empty range names the line it follows. -/
def Hunk.before (h : Hunk) (side : Side) : Nat :=
  if h.count side = 0 then h.start side else h.start side - 1

/-- The number of lines up to the end of a hunk on one side. -/
def Hunk.after (h : Hunk) (side : Side) : Nat := h.before side + h.count side

/-- The texts of a hunk on one side. -/
def Hunk.texts (h : Hunk) (side : Side) : List String :=
  (h.rows.filter fun r => (r.number side).isSome).map PatchRow.text

def Sources.doc (src : Sources) : Side → List String
  | .left => src.old
  | .right => src.new

/-- The documents hold the texts of the hunks and agree outside them, from `o` and `n` on. -/
def Sources.AgreesFrom (src : Sources) : Nat → Nat → List Hunk → Prop
  | o, n, [] => src.old.drop o = src.new.drop n
  | o, n, h :: rest =>
    o ≤ h.before .left ∧ n ≤ h.before .right ∧
    (src.old.drop o).take (h.before .left - o) = (src.new.drop n).take (h.before .right - n) ∧
    (∀ side, h.after side ≤ (src.doc side).length ∧
      h.texts side = ((src.doc side).drop (h.before side)).take (h.count side)) ∧
    src.AgreesFrom (h.after .left) (h.after .right) rest

namespace Proof
namespace Viewport

open Diffz.Presentation
open Diffz.Viewport
open Diffz.Proof.Patch (HunkInv HunksInv)

/-! ## Between the hunks -/

/-- As many lines lie between the hunks on one side as on the other. -/
def Parallel : Nat → Nat → List Hunk → Prop
  | _, _, [] => True
  | o, n, h :: rest =>
    o ≤ h.before .left ∧ n + h.before .left = o + h.before .right ∧
    Parallel (h.after .left) (h.after .right) rest

theorem agreesFrom_parallel {src : Sources} {o n : Nat} {hunks : List Hunk}
    (h : src.AgreesFrom o n hunks) : Parallel o n hunks := by
  induction hunks generalizing o n with
  | nil => trivial
  | cons g rest ih =>
    obtain ⟨ho, hn, hsame, hdocs, hrest⟩ := h
    refine ⟨ho, ?_, ih hrest⟩
    have hleft := (hdocs .left).1
    have hright := (hdocs .right).1
    have hlen := congrArg List.length hsame
    simp only [List.length_take, List.length_drop, Sources.doc, Hunk.after] at hleft hright hlen
    omega

theorem agreesFrom_length {src : Sources} {o n : Nat} {hunks : List Hunk}
    (h : src.AgreesFrom o n hunks) :
    ∀ g ∈ hunks, ∀ side, g.after side ≤ (src.doc side).length := by
  induction hunks generalizing o n with
  | nil => exact nofun
  | cons g rest ih =>
    obtain ⟨-, -, -, hdocs, hrest⟩ := h
    intro x hx
    rcases List.mem_cons.mp hx with rfl | hx
    · exact fun side => (hdocs side).1
    · exact ih hrest x hx

/-! ## Spacing -/

/-- What is shown around the hunks fits between them on a side, below the first `o` lines. -/
def Spaced (side : Side) : Nat → List Segment → Prop
  | _, [] => True
  | o, g :: rest =>
    o + g.above.length ≤ g.hunk.before side ∧ Spaced side (g.hunk.after side + g.below.length) rest

/-- The lines up to the end of what is shown. -/
def reach (side : Side) : Nat → List Segment → Nat
  | o, [] => o
  | _, g :: rest => reach side (g.hunk.after side + g.below.length) rest

theorem spaced_append {side : Side} {o : Nat} {pre rest : List Segment} :
    Spaced side o (pre ++ rest) ↔ Spaced side o pre ∧ Spaced side (reach side o pre) rest := by
  induction pre generalizing o with
  | nil => exact ⟨fun h => ⟨trivial, h⟩, fun h => h.2⟩
  | cons g pre ih =>
    rw [List.cons_append, Spaced, ih, Spaced, reach, and_assoc]

theorem reach_concat (side : Side) (o : Nat) (pre : List Segment) (g : Segment) :
    reach side o (pre ++ [g]) = g.hunk.after side + g.below.length := by
  induction pre generalizing o with
  | nil => rfl
  | cons x pre ih => exact ih _

/-- Spacing on the old side is spacing on the new one. -/
theorem spaced_right {o n x : Nat} {segs : List Segment}
    (hp : Parallel o n (segs.map Segment.hunk)) (h : Spaced .left (o + x) segs) :
    Spaced .right (n + x) segs := by
  induction segs generalizing o n x with
  | nil => trivial
  | cons g rest ih =>
    obtain ⟨ho, heq, hrest⟩ := hp
    obtain ⟨hfit, hspaced⟩ := h
    exact ⟨by omega, ih hrest hspaced⟩

theorem spaced_bare {o n : Nat} {hunks : List Hunk} (hp : Parallel o n hunks) :
    Spaced .left o (hunks.map fun h => ⟨h, [], []⟩) := by
  induction hunks generalizing o n with
  | nil => trivial
  | cons h rest ih => exact ⟨hp.1, ih hp.2.2⟩

/-! ## Numbers -/

/-- The context of a segment is numbered up to its hunk and on from it, on both sides. -/
structure Segment.Numbered (g : Segment) : Prop where
  above : ∀ side, shown side g.above =
    List.range' (g.hunk.start side - g.above.length) g.above.length
  below : ∀ side, shown side g.below =
    List.range' (g.hunk.start side + g.hunk.count side) g.below.length
  counts : 0 < g.above.length + g.below.length → ∀ side, 0 < g.hunk.count side

theorem range'_join {s t m n : Nat} (h : t = s + m) :
    List.range' s m ++ List.range' t n = List.range' s (m + n) := by
  rw [h, List.range'_append_1]

theorem shown_segment {g : Segment} (hg : g.Numbered) (hinv : HunkInv g.hunk) {side : Side}
    (hpos : 0 < g.hunk.count side → 0 < g.hunk.start side)
    (hroom : g.above.length ≤ g.hunk.before side) (split : Bool) :
    shown side (g.rows split) = List.range' (g.hunk.before side + 1 - g.above.length)
      (g.above.length + g.hunk.count side + g.below.length) := by
  have hrows : shown side (g.rows split) =
      List.range' (g.hunk.start side - g.above.length) g.above.length ++
        List.range' (g.hunk.start side) (g.hunk.count side) ++
        List.range' (g.hunk.start side + g.hunk.count side) g.below.length := by
    rw [← hg.above side, ← hg.below side, ← shown_hunkLines hinv split side, ← shown_append,
      ← shown_append]
    cases side <;> rfl
  rw [hrows]
  by_cases hcount : g.hunk.count side = 0
  · -- A hunk with nothing on this side is not expanded.
    have hnone : g.above.length + g.below.length = 0 := by
      by_contra h
      exact absurd (hg.counts (Nat.pos_of_ne_zero h) side) (by omega)
    have habove : g.above.length = 0 := by omega
    have hbelow : g.below.length = 0 := by omega
    simp [hcount, habove, hbelow]
  · have hstart : g.hunk.start side = g.hunk.before side + 1 := by
      have := hpos (Nat.pos_of_ne_zero hcount)
      rw [Hunk.before, if_neg hcount]
      omega
    rw [range'_join (by omega), range'_join (by omega), hstart]

/-- **Spaced segments show strictly increasing numbers.** -/
theorem spaced_increasing {side : Side} {o : Nat} {segs : List Segment} (split : Bool)
    (hs : Spaced side o segs) (hn : ∀ g ∈ segs, g.Numbered)
    (hinv : HunksInv (segs.map Segment.hunk)) :
    (shown side (segs.flatMap (Segment.rows split))).Pairwise (· < ·) ∧
      ∀ x ∈ shown side (segs.flatMap (Segment.rows split)), o < x := by
  induction segs generalizing o with
  | nil => exact ⟨.nil, nofun⟩
  | cons g rest ih =>
    obtain ⟨hfit, hspaced⟩ := hs
    have htail := ih hspaced (fun x hx => hn x (List.mem_cons_of_mem g hx)) hinv.tail
    have hnumbers := shown_segment (hn g List.mem_cons_self) (hinv.inv g.hunk List.mem_cons_self)
      (hinv.pos g.hunk List.mem_cons_self side) (by omega) split
    have hafter : g.hunk.after side = g.hunk.before side + g.hunk.count side := rfl
    rw [List.flatMap_cons, shown_append, hnumbers]
    constructor
    · refine List.pairwise_append.mpr ⟨List.pairwise_lt_range', htail.1, ?_⟩
      intro x hx y hy
      rw [List.mem_range'_1] at hx
      have hy' := htail.2 y hy
      omega
    · intro x hx
      rcases List.mem_append.mp hx with hx | hx
      · rw [List.mem_range'_1] at hx
        omega
      · have hx' := htail.2 x hx
        omega

/-! ## Plans -/

theorem subU32_ok {a b : Nat} (h : b ≤ a) : subU32 a b = .ok (a - b) := if_pos h

/-- What a request for more above asks for, and that nothing underflows on the way. -/
theorem countAbove_ok (request : ContextRequest) (gap : Nat) {used : Nat}
    (hused : used < contextBudget) :
    ∃ count, countAbove request gap used = .ok count ∧ ∀ n ∈ count, n ≤ gap := by
  cases request with
  | all =>
    simp only [countAbove]
    split
    · exact ⟨none, rfl, nofun⟩
    · rw [subU32_ok hused.le]
      refine ⟨_, rfl, ?_⟩
      intro n hn
      split at hn
      · cases hn
      · cases hn
        exact le_rfl
  | above => exact ⟨_, rfl, fun n hn => by cases hn; exact min_le_left _ _⟩
  | below => exact ⟨_, rfl, fun n hn => by cases hn; exact min_le_left _ _⟩

/-- A plan that goes on from the hunk it is for, within the room there is. -/
def Planned (v : Diffz.Viewport) (hunks : List Hunk) (request : ContextRequest)
    (plan : ContextPlan) : Prop :=
  ∃ h, hunks[plan.hunk]? = some h ∧ 0 < h.oldCount ∧ 0 < h.newCount ∧ 0 < plan.count ∧
    if request.isAbove then
      v.previousEnd hunks plan.hunk ≤ plan.old ∧ plan.old + plan.count ≤ h.oldStart ∧
        plan.old + h.newStart = plan.new + h.oldStart
    else
      h.oldStart + h.oldCount ≤ plan.old ∧
        plan.old + (h.newStart + h.newCount) = plan.new + (h.oldStart + h.oldCount) ∧
        ∀ next, hunks[plan.hunk + 1]? = some next →
          plan.old + plan.count + (v.expansion (plan.hunk + 1)).1 ≤ next.oldStart

theorem planAbove_ok (v : Diffz.Viewport) {hunks : List Hunk} {h : Nat} {current : Hunk}
    {used : Nat} {request : ContextRequest} (hused : used < contextBudget)
    (hcur : hunks[h]? = some current) (hold : 0 < current.oldCount) (hnew : 0 < current.newCount)
    (habove : request.isAbove) :
    ∃ plan, v.planAbove hunks h current used request = .ok plan ∧
      ∀ p ∈ plan, Planned v hunks request p := by
  unfold planAbove
  dsimp only
  split
  · exact ⟨none, rfl, nofun⟩
  · rename_i hbefore
    obtain ⟨count, hcount, hgap⟩ := countAbove_ok request
      (min (current.oldStart - (v.expansion h).1 - v.previousEnd hunks h)
        (current.newStart - (v.expansion h).1 - 1)) hused
    rw [hcount]
    cases count with
    | none => exact ⟨none, rfl, nofun⟩
    | some n =>
      have hn := hgap n rfl
      rw [le_min_iff] at hn
      simp only [bind, Except.bind]
      split
      · rw [subU32_ok (by omega), subU32_ok (by omega)]
        refine ⟨_, rfl, ?_⟩
        rintro p ⟨⟩
        refine ⟨current, hcur, hold, hnew, ‹_›, ?_⟩
        rw [if_pos habove]
        dsimp only
        omega
      · exact ⟨none, rfl, nofun⟩

theorem planBelow_some {v : Diffz.Viewport} {hunks : List Hunk} {h : Nat} {current : Hunk}
    {request : ContextRequest} {plan : ContextPlan} (hcur : hunks[h]? = some current)
    (hold : 0 < current.oldCount) (hnew : 0 < current.newCount) (hbelow : ¬request.isAbove)
    (hp : v.planBelow hunks h current = some plan) : Planned v hunks request plan := by
  unfold planBelow at hp
  dsimp only at hp
  split at hp
  · rename_i hcount
    cases hp
    refine ⟨current, hcur, hold, hnew, hcount, ?_⟩
    rw [if_neg hbelow]
    refine ⟨by dsimp only; omega, by dsimp only; omega, ?_⟩
    intro next hnext
    dsimp only at hnext hcount ⊢
    simp only [countBelow, hnext] at hcount ⊢
    omega
  · cases hp

/-- **No plan underflows**, and what is planned goes on from what is shown. -/
theorem planForRow_ok (v : Diffz.Viewport) (row : Nat) (request : ContextRequest) :
    ∃ plan, v.planForRow row request = .ok plan ∧
      ∀ p ∈ plan, ∀ f, v.change = some f → Planned v f.hunks request p := by
  unfold planForRow
  dsimp only
  split
  · exact ⟨none, rfl, nofun⟩
  · rename_i hused
    split
    · exact ⟨none, rfl, nofun⟩
    · rename_i f hf
      split
      · exact ⟨none, rfl, nofun⟩
      · rename_i current hcur
        split
        · exact ⟨none, rfl, nofun⟩
        · rename_i hcounts
          split
          · rename_i habove
            obtain ⟨plan, hplan, hp⟩ := planAbove_ok v (not_le.mp hused) hcur (by omega) (by omega)
              habove
            refine ⟨plan, hplan, ?_⟩
            intro p hmem g hg
            cases hf.symm.trans hg
            exact hp p hmem
          · rename_i hbelow
            refine ⟨_, rfl, ?_⟩
            intro p hmem g hg
            cases hf.symm.trans hg
            exact planBelow_some hcur (by omega) (by omega) hbelow hmem

/-! ## Inserting the lines that were read -/

/-- What was read is the same on both sides. -/
theorem read_ok {src : Sources} {plan : ContextPlan} {lines : List String}
    (h : src.read plan = .ok lines) :
    plan.old ≠ 0 ∧ lines = (src.old.drop (plan.old - 1)).take plan.count := by
  by_cases hleft : plan.old = 0 ∨ 1000 < plan.count
  · simp [Sources.read, sourceLines, hleft, bind, Except.bind] at h
  by_cases hright : plan.new = 0 ∨ 1000 < plan.count
  · simp [Sources.read, sourceLines, hleft, hright, bind, Except.bind] at h
  simp only [Sources.read, sourceLines, if_neg hleft, if_neg hright, bind, Except.bind] at h
  split at h
  · cases h
  · rename_i hsame
    cases h
    exact ⟨fun h => hleft (.inl h), (not_not.mp hsame).symm⟩

/-- The rows, the counts the code keeps, and the spacing go together. -/
structure Shows (v : Diffz.Viewport) (f : FileChange) (segs : List Segment) : Prop where
  laid : Laid v f segs
  expansion : ∀ (k : Nat) g, segs[k]? = some g →
    v.expansion k = (g.above.length, g.below.length)
  numbered : ∀ g ∈ segs, g.Numbered
  spaced : Spaced .left 0 segs

theorem shows_bare {v : Diffz.Viewport} {f : FileChange} (hl : Laid v f (bare f))
    (hv : v.expanded = ∅) (hp : Parallel 0 0 f.hunks) : Shows v f (bare f) where
  laid := hl
  expansion := by
    intro k g hg
    obtain ⟨h, -, rfl⟩ := List.mem_map.mp (List.mem_of_getElem? hg)
    rw [Viewport.expansion, hv]
    rfl
  numbered := by
    intro g hg
    obtain ⟨h, -, rfl⟩ := List.mem_map.mp hg
    exact ⟨fun _ => rfl, fun _ => rfl, nofun⟩
  spaced := spaced_bare hp

/-- The lines go on from what the segment shows on that side. -/
def Adjacent (g : Segment) (above : Bool) (old new count : Nat) : Prop :=
  ∀ side, 0 < g.hunk.count side ∧
    if above then startOf old new side + count + g.above.length = g.hunk.start side
    else startOf old new side = g.hunk.start side + g.hunk.count side + g.below.length

theorem Segment.Numbered.insert {g : Segment} {above split : Bool} {old new : Nat}
    {lines : List String} (hg : g.Numbered) (ha : Adjacent g above old new lines.length) :
    (g.insert above (contextRows split old new lines)).Numbered := by
  cases above with
  | true =>
    refine ⟨?_, hg.below, fun _ side => (ha side).1⟩
    intro side
    have hside := (ha side).2
    simp only [if_true] at hside
    simp only [Segment.insert, if_true, shown_append, shown_contextRows, hg.above side,
      List.length_append, contextRows_length]
    rw [range'_join (by omega)]
    congr 1
    omega
  | false =>
    refine ⟨hg.above, ?_, fun _ side => (ha side).1⟩
    intro side
    have hside := (ha side).2
    simp only [Bool.false_eq_true, if_false] at hside
    simp only [Segment.insert, Bool.false_eq_true, if_false, shown_append, shown_contextRows,
      hg.below side, List.length_append, contextRows_length]
    exact range'_join hside

section Insert

variable {v : Diffz.Viewport} {f : FileChange} {pre post : List Segment} {g : Segment}

/-- There is room for that many more lines on that side of the segment. -/
def Room (pre : List Segment) (g : Segment) (post : List Segment) (above : Bool) (count : Nat) :
    Prop :=
  if above then reach .left 0 pre + (count + g.above.length) ≤ g.hunk.before .left
  else ∀ next ∈ post.head?,
    g.hunk.after .left + (g.below.length + count) + next.above.length ≤ next.hunk.before .left

theorem spaced_insert {above : Bool} {ctx : List DisplayRow}
    (hs : Spaced .left 0 (pre ++ g :: post)) (hroom : Room pre g post above ctx.length) :
    Spaced .left 0 (pre ++ g.insert above ctx :: post) := by
  obtain ⟨hpre, hfit, hpost⟩ := spaced_append.mp hs
  refine spaced_append.mpr ⟨hpre, ?_⟩
  cases above with
  | true =>
    refine ⟨?_, hpost⟩
    simpa [Segment.insert, Room] using hroom
  | false =>
    refine ⟨hfit, ?_⟩
    cases post with
    | nil => trivial
    | cons next rest =>
      refine ⟨?_, hpost.2⟩
      simpa [Segment.insert] using hroom next rfl

theorem expansion_insert (hl : Laid v f (pre ++ g :: post)) (above : Bool) (old new : Nat)
    (lines : List String) (k : Nat) :
    (v.insertContext pre.length above old new lines).expansion k =
      if k = pre.length then
        if above then ((v.expansion k).1 + lines.length, (v.expansion k).2)
        else ((v.expansion k).1, (v.expansion k).2 + lines.length)
      else v.expansion k := by
  rw [hl.insertContext_eq, Viewport.expansion, Table.find_put]
  split
  · rename_i hk
    rw [hk]
    rfl
  · rfl

theorem Shows.insert {above : Bool} {old new : Nat} {lines : List String}
    (h : Shows v f (pre ++ g :: post)) (ha : Adjacent g above old new lines.length)
    (hroom : Room pre g post above lines.length) :
    Shows (v.insertContext pre.length above old new lines) f
      (pre ++ g.insert above (contextRows v.split old new lines) :: post) where
  laid := h.laid.insert above old new lines
  expansion := by
    intro k x hx
    rw [expansion_insert h.laid]
    split
    · rename_i hk
      subst hk
      have hg := h.expansion pre.length g (by simp)
      rw [List.getElem?_append_right le_rfl, Nat.sub_self] at hx
      cases hx
      rw [hg]
      cases above <;> simp [Segment.insert, contextRows_length, Nat.add_comm]
    · rename_i hk
      refine h.expansion k x ?_
      rcases Nat.lt_or_gt_of_ne hk with hlt | hgt
      · rwa [List.getElem?_append_left hlt] at hx ⊢
      · rw [List.getElem?_append_right hgt.le] at hx ⊢
        obtain ⟨m, hm⟩ := Nat.exists_eq_add_of_lt hgt
        have hidx : k - pre.length = m + 1 := by omega
        rw [hidx] at hx ⊢
        exact hx
  numbered := by
    intro x hx
    rcases List.mem_append.mp hx with hx | hx
    · exact h.numbered x (List.mem_append_left _ hx)
    rcases List.mem_cons.mp hx with rfl | hx
    · exact (h.numbered g (by simp)).insert ha
    · exact h.numbered x (by simp [hx])
  spaced := spaced_insert h.spaced (by rwa [contextRows_length])

/-- No lines, nothing changed. -/
theorem Shows.insert_nil (h : Shows v f (pre ++ g :: post)) (above : Bool) (old new : Nat) :
    Shows (v.insertContext pre.length above old new []) f (pre ++ g :: post) where
  laid := by
    have hl := h.laid.insert above old new []
    have hg : g.insert above (contextRows v.split old new []) = g := by
      cases above <;> simp [Segment.insert, contextRows]
    rwa [hg] at hl
  expansion := by
    intro k x hx
    rw [expansion_insert h.laid, ← h.expansion k x hx]
    split
    · cases above <;> rfl
    · rfl
  numbered := h.numbered
  spaced := h.spaced

end Insert

/-! ## Plans that fit -/

/-- The side of the hunk shows as many lines as the plan was made for, and the plan does not go back
to the old line that a hunk of added lines follows. -/
structure Fitting (v : Diffz.Viewport) (hunks : List Hunk) (request : ContextRequest)
    (plan : ContextPlan) : Prop where
  current : ∀ h, hunks[plan.hunk]? = some h →
    if request.isAbove then plan.old + plan.count + (v.expansion plan.hunk).1 = h.oldStart
    else plan.old = h.oldStart + h.oldCount + (v.expansion plan.hunk).2
  behind : request.isAbove → ∀ p, 0 < plan.hunk → hunks[plan.hunk - 1]? = some p →
    p.oldCount = 0 → plan.old ≠ p.oldStart

section Read

variable {v : Diffz.Viewport} {f : FileChange} {pre post : List Segment} {g : Segment}
  {request : ContextRequest} {plan : ContextPlan} {src : Sources} {lines : List String}

theorem exists_split {α : Type} {l : List α} {k : Nat} {a : α} (h : l[k]? = some a) :
    ∃ pre post, l = pre ++ a :: post ∧ pre.length = k := by
  obtain ⟨hk, rfl⟩ := List.getElem?_eq_some_iff.mp h
  refine ⟨l.take k, l.drop (k + 1), ?_, List.length_take_of_le hk.le⟩
  rw [← List.drop_eq_getElem_cons hk, List.take_append_drop]

theorem hunk_at (hl : Laid v f (pre ++ g :: post)) : f.hunks[pre.length]? = some g.hunk := by
  rw [← hl.hunks]
  simp

theorem hunk_before (hl : Laid v f (pre ++ [g] ++ post)) : f.hunks[pre.length]? = some g.hunk := by
  rw [← hl.hunks]
  simp

/-- Where the code has the hidden lines begin, there or one line later they do. -/
theorem reach_lt_old (h : Shows v f (pre ++ g :: post)) (hi : HunksInv f.hunks)
    (hplan : plan.hunk = pre.length) (hend : v.previousEnd f.hunks plan.hunk ≤ plan.old)
    (hold : plan.old ≠ 0)
    (hbehind : ∀ p, 0 < plan.hunk → f.hunks[plan.hunk - 1]? = some p → p.oldCount = 0 →
      plan.old ≠ p.oldStart) :
    reach .left 0 pre < plan.old := by
  rcases List.eq_nil_or_concat pre with rfl | ⟨init, p, rfl⟩
  · exact Nat.pos_of_ne_zero hold
  · rw [List.concat_eq_append] at h hplan ⊢
    have hp : f.hunks[plan.hunk - 1]? = some p.hunk := by
      rw [hplan, List.length_append, List.length_singleton, Nat.add_sub_cancel]
      exact hunk_before h.laid
    have hx : v.expansion (plan.hunk - 1) = (p.above.length, p.below.length) := by
      refine h.expansion _ p ?_
      rw [hplan]
      simp
    have hpos : 0 < plan.hunk := by
      rw [hplan]
      simp
    rw [previousEnd, if_neg hpos.ne', hp, hx] at hend
    dsimp only at hend
    have hne := hbehind p.hunk hpos hp
    have hstart := hi.pos p.hunk (List.mem_of_getElem? hp) .left
    have hcounts := (h.numbered p (by simp)).counts
    rw [reach_concat]
    by_cases hzero : p.hunk.oldCount = 0
    · have hafter : p.hunk.after .left = p.hunk.oldStart := by
        simp [Hunk.after, Hunk.before, Hunk.count, Hunk.start, hzero]
      have hnone : p.above.length + p.below.length = 0 := by
        by_contra hsome
        exact absurd (hcounts (Nat.pos_of_ne_zero hsome) .left) (by simp [Hunk.count, hzero])
      have hother := hne hzero
      omega
    · have hafter : p.hunk.after .left = p.hunk.oldStart - 1 + p.hunk.oldCount := by
        simp [Hunk.after, Hunk.before, Hunk.count, Hunk.start, hzero]
      have hfirst : 0 < p.hunk.oldStart := hstart (Nat.pos_of_ne_zero hzero)
      omega

theorem Shows.insert_read (h : Shows v f (pre ++ g :: post)) (hi : HunksInv f.hunks)
    (hsrc : src.AgreesFrom 0 0 f.hunks) (hplan : plan.hunk = pre.length)
    (hp : Planned v f.hunks request plan) (hread : src.read plan = .ok lines)
    (hfit : Fitting v f.hunks request plan) :
    Shows (v.insertContext pre.length request.isAbove plan.old plan.new lines) f
      (pre ++ g.insert request.isAbove (contextRows v.split plan.old plan.new lines) :: post) := by
  obtain ⟨hold, hlines⟩ := read_ok hread
  obtain ⟨k, hk, hoc, hnc, hcount, hroom⟩ := hp
  have hg : f.hunks[plan.hunk]? = some g.hunk := by
    rw [hplan]
    exact hunk_at h.laid
  cases hg.symm.trans hk
  have hx : v.expansion plan.hunk = (g.above.length, g.below.length) := by
    refine h.expansion _ g ?_
    rw [hplan]
    simp
  have hcur := hfit.current g.hunk hg
  have hlong := agreesFrom_length hsrc g.hunk (List.mem_of_getElem? hg) .left
  have hstart := hi.pos g.hunk (List.mem_of_getElem? hg) .left hoc
  have hbefore : g.hunk.before .left = g.hunk.oldStart - 1 := if_neg hoc.ne'
  have hafter : g.hunk.after .left = g.hunk.oldStart - 1 + g.hunk.oldCount := by
    rw [Hunk.after, hbefore]
    rfl
  have hcounts : ∀ side, 0 < g.hunk.count side := fun side => by
    cases side
    · exact hoc
    · exact hnc
  rw [hx] at hcur
  cases habove : request.isAbove with
  | true =>
    simp only [habove, if_true] at hroom hcur
    obtain ⟨hend, -, hsame⟩ := hroom
    have hlen : lines.length = plan.count := by
      rw [hlines, List.length_take, List.length_drop]
      simp only [Sources.doc, Hunk.start] at hlong hstart
      omega
    refine h.insert ?_ ?_
    · intro side
      refine ⟨hcounts side, ?_⟩
      cases side
      · simp only [if_true, startOf, Hunk.start]
        omega
      · simp only [if_true, startOf, Hunk.start]
        omega
    · have hreach := reach_lt_old h hi hplan hend hold (hfit.behind habove)
      simp only [Room, if_true]
      omega
  | false =>
    simp only [habove, Bool.false_eq_true, if_false] at hroom hcur
    obtain ⟨-, hsame, hnext⟩ := hroom
    have hlen : lines.length ≤ plan.count := by
      rw [hlines]
      exact List.length_take_le _ _
    refine h.insert ?_ ?_
    · intro side
      refine ⟨hcounts side, ?_⟩
      cases side
      · simp only [Bool.false_eq_true, if_false, startOf, Hunk.start, Hunk.count]
        omega
      · simp only [Bool.false_eq_true, if_false, startOf, Hunk.start, Hunk.count]
        omega
    · simp only [Room, Bool.false_eq_true, if_false]
      intro next hmem
      obtain ⟨rest, rfl⟩ : ∃ rest, post = next :: rest := List.head?_eq_some_iff.mp hmem
      have hidx : f.hunks[plan.hunk + 1]? = some next.hunk := by
        rw [hplan, ← h.laid.hunks]
        simp
      have hxn : v.expansion (plan.hunk + 1) = (next.above.length, next.below.length) := by
        refine h.expansion _ next ?_
        rw [hplan]
        simp
      have hfits := hnext next.hunk hidx
      rw [hxn] at hfits
      have hnb : next.hunk.oldStart ≤ next.hunk.before .left + 1 := by
        simp only [Hunk.before, Hunk.start]
        split <;> omega
      simp only [Hunk.start] at hstart
      dsimp only at hfits
      omega

end Read

end Viewport
end Proof
end Diffz
