import Diffz.Core.Inline
import Diffz.Core.Patch
import Diffz.Lib.LcsFlat

/-!
# The rich diff (`crates/core/src/rich.rs`)

A hunk of Markdown prose is shown block by block. The lines of each side are grouped into blocks,
the blocks of the two sides are paired along a longest common subsequence of their texts, and what
lies between two pairs is shown as changed, removed or added. Between the hunks, gaps say which
lines the patch leaves out. In a changed block, `mark_words` puts markers around the words that
change.
-/

set_option autoImplicit false

namespace Diffz
namespace Rich

inductive RichKind
  | same
  | added
  | removed
  | changed
deriving DecidableEq, Repr

structure RichBlock where
  kind : RichKind
  /-- Markdown source on the old side (`added` blocks have none) -/
  old : Option String
  new : Option String
  oldLine : Option Nat
  newLine : Option Nat
deriving DecidableEq, Repr

/-- Lines the patch leaves out, before a hunk. -/
structure Gap where
  oldLine : Nat
  newLine : Nat
  count : Nat
deriving DecidableEq, Repr

inductive RichItem
  | block (b : RichBlock)
  | gap (g : Gap)
deriving DecidableEq, Repr

/-! ## Blocks -/

/-- An opening fence starts the trimmed line with 3+ backticks or tildes. -/
def opener : List Char → Option (Char × Nat)
  | [] => none
  | ch :: rest =>
    if ch ≠ '\x60' ∧ ch ≠ '~' then none
    else
      let len := ((ch :: rest).takeWhile (· = ch)).length
      if 3 ≤ len then some (ch, len) else none

/-- A closer fence repeats the same char at least as many times as the opener. -/
def closer (trimmed : List Char) (ch : Char) (openLen : Nat) : Bool :=
  trimmed.head? = some ch && max openLen 3 ≤ (trimmed.takeWhile (· = ch)).length

/-- ATX heading: `#` repeated 1-6 times, then a space, with at most 3 leading spaces allowed. -/
def isHeading (line : List Char) : Bool :=
  let spaces := (line.takeWhile (· = ' ')).length
  let rest := line.drop spaces
  let hashes := (rest.takeWhile (· = '#')).length
  spaces ≤ 3 && 1 ≤ hashes && hashes ≤ 6 && (rest.drop hashes).head? = some ' '

/-- A line that is neither blank nor special. -/
def isText (line : String) : Bool :=
  !isBlank line && !isHeading line.toList && (opener (trim line).toList).isNone

/-- The spans of the blocks in the lines from `i` on. -/
def blocksFrom (i : Nat) : List String → List (Nat × Nat)
  | [] => []
  | line :: rest =>
    if isBlank line then blocksFrom (i + 1) rest
    else
      match opener (trim line).toList with
      | some (ch, len) =>
        -- Extend to the matching end fence, which belongs to the block.
        let body := (rest.takeWhile fun l => !closer (trim l).toList ch len).length
        if body < rest.length then
          (i, i + body + 2) :: blocksFrom (i + body + 2) (rest.drop (body + 1))
        else
          -- A fence that never closes reaches the end.
          [(i, i + 1 + rest.length)]
      | none =>
        if isHeading line.toList then (i, i + 1) :: blocksFrom (i + 1) rest
        else
          let text := (rest.takeWhile isText).length
          (i, i + 1 + text) :: blocksFrom (i + 1 + text) (rest.drop text)
termination_by lines => lines.length
decreasing_by
  all_goals simp only [List.length_cons, List.length_drop]; omega

def blocks (lines : List String) : List (Nat × Nat) := blocksFrom 0 lines

/-- The inner loops of `blocks`: the first line from `j` on that is not like this. -/
def scan (like : String → Bool) (lines : List String) (j : Nat) : Nat :=
  if h : j < lines.length then
    if like lines[j] then scan like lines (j + 1) else j
  else j
termination_by lines.length - j

/-- `blocks` with its loop over the index of the next line, as it is written: every turn takes fuel,
and it is `none` where that runs out. -/
def blocksLoop (lines : List String) : Nat → Nat → List (Nat × Nat) → Option (List (Nat × Nat))
  | 0, _, _ => none
  | fuel + 1, i, out =>
    match lines[i]? with
    | none => some out
    | some line =>
      if isBlank line then blocksLoop lines fuel (i + 1) out
      else
        match opener (trim line).toList with
        | some (ch, len) =>
          let j := scan (fun l => !closer (trim l).toList ch len) lines (i + 1)
          if j < lines.length then blocksLoop lines fuel (j + 1) (out ++ [(i, j + 1)])
          else blocksLoop lines fuel lines.length (out ++ [(i, lines.length)])
        | none =>
          if isHeading line.toList then blocksLoop lines fuel (i + 1) (out ++ [(i, i + 1)])
          else
            let stop := scan isText lines i
            blocksLoop lines fuel stop (out ++ [(i, stop)])

/-! ## Sides -/

/-- `Side`: kept rows plus their line numbers, grouped as blocks. -/
structure HunkSide where
  lines : List String
  nums : List Nat
  blocks : List (Nat × Nat)
deriving DecidableEq, Repr

namespace HunkSide

/-- The lines of a block. -/
def blockLines (s : HunkSide) (idx : Nat) : List String :=
  let r := s.blocks.getD idx (0, 0)
  (s.lines.drop r.1).take (r.2 - r.1)

def text (s : HunkSide) (idx : Nat) : String := "\n".intercalate (s.blockLines idx)

/-- Only the last source line's trailing whitespace is ignored. -/
def norm (s : HunkSide) (idx : Nat) : String :=
  let suffix := ((s.blockLines idx).getLast?.map fun l => l.length - (trimEnd l).length).getD 0
  let text := s.text idx
  String.ofList (text.toList.take (text.length - suffix))

/-- `s.nums[s.blocks[idx].start]`. -/
def firstLine (s : HunkSide) (idx : Nat) : Nat := s.nums.getD (s.blocks.getD idx (0, 0)).1 0

end HunkSide

def buildSide (hunk : Hunk) (keep : RowKind → Bool) (num : PatchRow → Option Nat) : HunkSide :=
  let rows := hunk.rows.filter fun r => keep r.kind
  { lines := rows.map (·.text)
    nums := rows.map fun r => (num r).getD 0
    blocks := blocks (rows.map (·.text)) }

def oldSide (hunk : Hunk) : HunkSide := buildSide hunk (· ≠ .added) (·.oldLine)

def newSide (hunk : Hunk) : HunkSide := buildSide hunk (· ≠ .removed) (·.newLine)

/-! ## Pairing -/

/-- What is kept of a number in a `u16`. -/
def wrapU16 (n : Nat) : Nat := n % 65536

def norms (s : HunkSide) : List String := (List.range s.blocks.length).map s.norm

/-- The table of the walk. -/
def dp (a b : HunkSide) : List (List Nat) := lcsTable wrapU16 (norms a) (norms b)

/-- `lcs`: over normalized block text, and none once the pairing grows too large. -/
def lcs (a b : HunkSide) : Option (List (Nat × Nat)) :=
  if a.blocks = [] ∨ b.blocks = [] then some []
  else if a.blocks.length * b.blocks.length > 250000 then none
  else
    some (walk (fun i j => decide (i + 1 < a.blocks.length) &&
      decide (entry (dp a b) i (j + 1) ≤ entry (dp a b) (i + 1) j)) 0 0 (norms a) (norms b))

/-- `lcs` with its table in one vector: `none` where an index is out of range. -/
def lcsLoop (a b : HunkSide) : Option (Option (List (Nat × Nat))) :=
  if a.blocks = [] ∨ b.blocks = [] then some (some [])
  else if a.blocks.length * b.blocks.length > 250000 then some none
  else
    (lcsFlat wrapU16 (norms a) (norms b) fun i => decide (i + 1 < a.blocks.length)).map some

def block (kind : RichKind) (old new : Option (Nat × HunkSide)) : RichBlock where
  kind := kind
  old := old.map fun s => s.2.text s.1
  new := new.map fun s => s.2.text s.1
  oldLine := old.map fun s => s.2.firstLine s.1
  newLine := new.map fun s => s.2.firstLine s.1

/-- Every block from the current position up to the next match. -/
def between (old new : HunkSide) (i j oldEnd newEnd : Nat) : List RichBlock :=
  let k := oldEnd - i
  let m := newEnd - j
  let paired := min k m
  (List.range paired).map (fun t => block .changed (some (i + t, old)) (some (j + t, new))) ++
    (List.range' paired (k - paired)).map (fun t => block .removed (some (i + t, old)) none) ++
    (List.range' paired (m - paired)).map fun t => block .added none (some (j + t, new))

/-- The loop of `emit_hunk`. It is `none` where the fuel runs out, or where one of the subtractions
in it would go below zero. -/
def emitLoop (old new : HunkSide) : Nat → Nat → Nat → List (Nat × Nat) → Option (List RichBlock)
  | 0, _, _, _ => none
  | fuel + 1, i, j, matched =>
    if i < old.blocks.length ∨ j < new.blocks.length then
      match matched with
      | (oi, nj) :: rest =>
        if i = oi ∧ j = nj then
          (emitLoop old new fuel (oi + 1) (nj + 1) rest).map
            (block .same (some (oi, old)) (some (nj, new)) :: ·)
        else if oi < i ∨ nj < j then none
        else
          (emitLoop old new fuel oi nj matched).map (between old new i j oi nj ++ ·)
      | [] =>
        if old.blocks.length < i ∨ new.blocks.length < j then none
        else
          (emitLoop old new fuel old.blocks.length new.blocks.length []).map
            (between old new i j old.blocks.length new.blocks.length ++ ·)
    else some []

/-- Pairing too large: each old block becomes removed, each new one added. -/
def unpaired (old new : HunkSide) : List RichBlock :=
  (List.range old.blocks.length).map (fun i => block .removed (some (i, old)) none) ++
    (List.range new.blocks.length).map fun j => block .added none (some (j, new))

def emitHunk (hunk : Hunk) : Option (List RichBlock) :=
  let old := oldSide hunk
  let new := newSide hunk
  match lcs old new with
  | none => some (unpaired old new)
  | some matched =>
    emitLoop old new (old.blocks.length + new.blocks.length + 1) 0 0 matched

/-! ## Gaps -/

/-- The last line of a hunk on a side, or the one before it. -/
def lastLine (hunk : Hunk) (side : Side) (prev : Nat) : Nat :=
  ((hunk.rows.filterMap (·.number side)).max?).getD prev

def gapBefore (hunk : Hunk) (prevOldEnd prevNewEnd : Nat) : Option Gap :=
  if hunk.newStart > wrappingAdd prevNewEnd 1 then
    some { oldLine := wrappingAdd prevOldEnd 1
           newLine := wrappingAdd prevNewEnd 1
           count := hunk.newStart - prevNewEnd - 1 }
  else none

/-- The loop of `rich_diff`. -/
def richLoop : Nat → Nat → List Hunk → Option (List RichItem)
  | _, _, [] => some []
  | prevOldEnd, prevNewEnd, hunk :: hunks =>
    match emitHunk hunk with
    | none => none
    | some blocks =>
      (richLoop (lastLine hunk .left prevOldEnd) (lastLine hunk .right prevNewEnd) hunks).map
        fun rest =>
          (gapBefore hunk prevOldEnd prevNewEnd).toList.map .gap ++ blocks.map .block ++ rest

def richDiff (file : FileChange) : Option (List RichItem) := richLoop 0 0 file.hunks

/-! ## Changed words -/

section MarkWords

variable (alphanumeric : Char → Bool) (noisy : Nat → Nat → Bool)

/-- The first loop of `wrap`, where `last` is the last merged span. -/
def mergeFrom (text : List Char) (last : Span) : List Span → Option (List Span)
  | [] => some [last]
  | r :: rest =>
    if last.stop ≤ r.start ∧ r.start - last.stop ≤ 2 then
      (slice text ⟨last.stop, r.start⟩).bind fun gap =>
        if gap.any alphanumeric then (mergeFrom text r rest).map (last :: ·)
        else mergeFrom text ⟨last.start, r.stop⟩ rest
    else (mergeFrom text r rest).map (last :: ·)

def merge (text : List Char) : List Span → Option (List Span)
  | [] => some []
  | r :: rest => mergeFrom alphanumeric text r rest

/-- The second loop of `wrap`, where the text before `copied` is in the output. -/
def wrapFrom (text : List Char) (marker : String × String) (copied : Nat) :
    List Span → Option (List Char)
  | [] => slice text ⟨copied, byteLen text⟩
  | r :: rest =>
    (slice text r).bind fun piece =>
      let lead := byteLen piece - byteLen (piece.dropWhile isWhitespace)
      let trail := byteLen piece - byteLen (piece.rdropWhile isWhitespace)
      if byteLen piece ≤ lead + trail then wrapFrom text marker copied rest
      else
        (slice text ⟨copied, r.start + lead⟩).bind fun before =>
          (slice text ⟨r.start + lead, r.stop - trail⟩).bind fun word =>
            (wrapFrom text marker (r.stop - trail) rest).map fun after =>
              before ++ (marker.1.toList ++ (word ++ (marker.2.toList ++ after)))

def wrap (text : String) (ranges : List Span) (marker : String × String) : Option String :=
  (merge alphanumeric text.toList ranges).bind fun merged =>
    (wrapFrom text.toList marker 0 merged).map String.ofList

/-- The text begins with a fence. -/
def fenced (text : String) : Bool :=
  "```".toList.isPrefixOf (trimStart text).toList || "~~~".toList.isPrefixOf (trimStart text).toList

/-- `mark_words`. -/
def markWords (old new : String) (removed added : String × String) : Option (String × String) :=
  if fenced old then some (old, new)
  else
    (Inline.wordDiffWith alphanumeric noisy old new (64 * 1024) 3000).bind fun ab =>
      (wrap alphanumeric old ab.1 removed).bind fun o =>
        (wrap alphanumeric new ab.2 added).map fun n => (o, n)

end MarkWords

end Rich
end Diffz
