import Diffz.Lib.LcsFlat
import Diffz.Lib.Spans
import Diffz.Lib.Text

/-!
# Word marks (`crates/core/src/inline.rs`)

The changed words of two texts, as spans of bytes on each side. Both texts are cut into tokens, and
the tokens outside of a longest common subsequence are marked. `word_diff_with` leaves the shared
beginning and end alone first, and takes sentences for tokens where there are too many of them.

A function is `none` where the source would panic: at a slice that is not on character boundaries or
whose ends are in the wrong order, and at an index out of bounds. Where the source itself returns an
`Option`, there are two of them here. Two things of the source's standard library are parameters:
`alphanumeric` is `char::is_alphanumeric`, and `noisy` is the comparison in `f32` of the quotient of
two lengths with 0.7.
-/

set_option autoImplicit false

namespace Diffz
namespace Inline

def maxBytes : Nat := 4096

def maxTokens : Nat := 512

/-- The spans to mark on each side. -/
abbrev Ranges := List Span

/-! ## Tokens -/

section Tokens

variable (alphanumeric : Char → Bool)

def isWord (c : Char) : Bool := alphanumeric c || decide (c = '_')

/-- Whether a token that begins with `c` goes on with `next`. -/
def joins (c next : Char) : Bool :=
  (isWord alphanumeric c && isWord alphanumeric next) || (isWhitespace c && isWhitespace next)

/-- What the token that begins with `c` has of what follows. -/
def run (c : Char) (rest : List Char) : List Char := rest.takeWhile (joins alphanumeric c)

def tokenEnd (start : Nat) (c : Char) (rest : List Char) : Nat :=
  start + c.utf8Size + byteLen (run alphanumeric c rest)

/-- The tokens of what follows the byte `start`, after `count` of them. -/
def tokensFrom (limit count start : Nat) : List Char → Option (List Span)
  | [] => some []
  | c :: rest =>
    if count + 1 > limit then none
    else
      (tokensFrom limit (count + 1) (tokenEnd alphanumeric start c rest)
        (rest.drop (run alphanumeric c rest).length)).map
        ({ start, stop := tokenEnd alphanumeric start c rest } :: ·)
termination_by text => text.length
decreasing_by
  simp only [List.length_cons, List.length_drop]
  omega

/-- `tokens`, with the limit on their number. -/
def tokens (s : List Char) (limit : Nat) : Option (List Span) :=
  tokensFrom alphanumeric limit 0 0 s

end Tokens

/-- `coalesce`, where `p` is the last span. -/
def coalesceFrom (p : Span) : List Span → List Span
  | [] => [p]
  | r :: v =>
    if p.stop = r.start then coalesceFrom { start := p.start, stop := r.stop } v
    else p :: coalesceFrom r v

def coalesce : List Span → List Span
  | [] => []
  | r :: v => coalesceFrom r v

/-! ## The subsequence -/

/-- What is kept of a number in a `u32`. -/
def wrapU32 (n : Nat) : Nat := n % (u32Max + 1)

/-- The matched index pairs, in order. -/
def lcs {α : Type} [DecidableEq α] (a b : List α) : List (Nat × Nat) :=
  if a = [] ∨ b = [] then []
  else
    let dp := lcsTable wrapU32 a b
    walk (fun i j => decide (entry dp i (j + 1) ≤ entry dp (i + 1) j)) 0 0 a b

/-- The most numbers of 4 bytes a `Vec` holds. -/
def maxWords : Nat := (2 ^ 63 - 1) / 4

/-- `lcs` with its table in one vector: `none` where the vector is too large, or an index out of
range. -/
def lcsLoop {α : Type} [DecidableEq α] (a b : List α) : Option (List (Nat × Nat)) :=
  if a = [] ∨ b = [] then some []
  else if maxWords < (a.length + 1) * (b.length + 1) then none
  else lcsFlat wrapU32 a b fun _ => true

/-- `&v[i..j]`. -/
def sub {β : Type} (v : List β) (i j : Nat) : Option (List β) :=
  if i ≤ j ∧ j ≤ v.length then some ((v.take j).drop i) else none

/-- The loop over the matches and the two ends: what lies on each side before each of them. -/
def gapsFrom {β : Type} (a b : List β) : Nat → Nat → List (Nat × Nat) →
    Option (List (List β × List β))
  | _, _, [] => some []
  | i, j, (mi, mj) :: rest =>
    match sub a i mi, sub b j mj with
    | some x, some y =>
      (gapsFrom a b (min (mi + 1) a.length) (min (mj + 1) b.length) rest).map ((x, y) :: ·)
    | _, _ => none

/-- The parts of two lists between the matches of their texts. -/
def gaps {α β : Type} [DecidableEq α] (a b : List β) (ta tb : List α) :
    Option (List (List β × List β)) :=
  gapsFrom a b 0 0 (lcs ta tb ++ [(a.length, b.length)])

/-! ## Marks -/

def span (t : List Span) : Ranges :=
  match t.head?, t.getLast? with
  | some first, some last => [{ start := first.start, stop := last.stop }]
  | _, _ => []

def total (t : List Span) : Nat := (t.map Span.len).sum

section Marks

variable (noisy : Nat → Nat → Bool) (old new : List Char)

def fraction (ranges : List Span) (len : Nat) : Bool := decide (0 < len) && noisy (total ranges) len

/-- The tokens outside of the subsequence, but not where this is most of a side. -/
def fine (a b : List Span) : Option (Option (Ranges × Ranges)) := do
  let ta ← a.mapM (slice old)
  let tb ← b.mapM (slice new)
  let gs ← gaps a b ta tb
  let ra := gs.flatMap (·.1)
  let rb := gs.flatMap (·.2)
  if fraction noisy ra (total a) || fraction noisy rb (total b) then return none
  else return some (coalesce ra, coalesce rb)

/-! ## Sentences -/

/-- A chunk of the tokens: its bytes, and which of the tokens it has. -/
structure Sentence where
  bytes : Span
  tokens : Span
deriving DecidableEq, Repr

/-- `terminal`, of a token and those after it. -/
def isTerminal (text : List Char) (piece : List Char) : List Span → Option Bool
  | [] => some false
  | n :: _ =>
    if piece = ['.'] ∨ piece = ['!'] ∨ piece = ['?'] then
      (slice text n).map fun s => s.all isWhitespace
    else some false

/-- The loop of `sentences`, at the token `i`. -/
def sentencesFrom (text : List Char) (toks : List Span) : Nat → Nat → List Span →
    Option (List Sentence)
  | _, _, [] => some []
  | start, i, t :: rest => do
    let piece ← slice text t
    let terminal ← isTerminal text piece rest
    if terminal || decide ('\n' ∈ piece) || decide (i + 1 = toks.length) then
      let first ← toks[start]?
      let out ← sentencesFrom text toks (i + 1) (i + 1) rest
      return { bytes := { start := first.start, stop := t.stop }
               tokens := { start, stop := i + 1 } } :: out
    else sentencesFrom text toks start (i + 1) rest

/-- A chunk stops after `.`, `!` or `?` when white space comes next, or at white space with a line
feed. -/
def sentences (text : List Char) (toks : List Span) : Option (List Sentence) :=
  sentencesFrom text toks 0 0 toks

/-- `text[c.bytes].trim()`. -/
def trimmed (text : List Char) (c : Sentence) : Option String :=
  (slice text c.bytes).map fun s => trim (String.ofList s)

/-- The words of two sentences, where neither has too many. -/
def refined (limit : Nat) (ta tb : List Span) : Option (Option (Ranges × Ranges)) :=
  if ta.length ≤ limit ∧ tb.length ≤ limit then fine noisy old new ta tb else some none

/-- What is marked of two sentences: their words, or all of both. -/
def refine (limit : Nat) (a b : List Span) (x y : Sentence) : Option (Ranges × Ranges) := do
  let ta ← sub a x.tokens.start x.tokens.stop
  let tb ← sub b y.tokens.start y.tokens.stop
  let marks ← refined noisy old new limit ta tb
  return marks.getD ([x.bytes], [y.bytes])

/-- One round of the loop of `coarse`: sentences are paired as they stand, and the rest of the
longer side is marked. -/
def coarseGap (limit : Nat) (a b : List Span) (g : List Sentence × List Sentence) :
    Option (Ranges × Ranges) := do
  let paired := min g.1.length g.2.length
  let pairs ← (g.1.zip g.2).mapM fun xy => refine noisy old new limit a b xy.1 xy.2
  return (pairs.flatMap (·.1) ++ (g.1.drop paired).map (·.bytes),
    pairs.flatMap (·.2) ++ (g.2.drop paired).map (·.bytes))

def coarse (limit : Nat) (a b : List Span) : Option (Ranges × Ranges) := do
  let ca ← sentences old a
  let cb ← sentences new b
  if ca.length * cb.length > 4000000 then return (span a, span b)
  let ta ← ca.mapM (trimmed old)
  let tb ← cb.mapM (trimmed new)
  let gs ← gaps ca cb ta tb
  let rounds ← gs.mapM (coarseGap noisy old new limit a b)
  return (coalesce (rounds.flatMap (·.1)), coalesce (rounds.flatMap (·.2)))

/-! ## Word diffs -/

/-- How many tokens are the same at the beginning. -/
def shared : List Span → List Span → Option Nat
  | x :: a, y :: b => do
    let s ← slice old x
    let t ← slice new y
    if s = t then (shared a b).map (· + 1) else some 0
  | _, _ => some 0

/-- The tokens that are left without the shared beginning and end. -/
def middle (a b : List Span) : Option (List Span × List Span) := do
  let begun ← shared old new a b
  -- The loop from the end does not go past the shared beginning.
  let ended ← shared old new (a.drop begun).reverse (b.drop begun).reverse
  let a' ← sub a begun (a.length - ended)
  let b' ← sub b begun (b.length - ended)
  return (a', b')

end Marks

section WordDiff

variable (alphanumeric : Char → Bool) (noisy : Nat → Nat → Bool)

/-- `word_diff`. -/
def wordDiff (old new : String) : Option (Ranges × Ranges) :=
  if byteLen old.toList > maxBytes ∨ byteLen new.toList > maxBytes then some ([], [])
  else
    match tokens alphanumeric old.toList maxTokens, tokens alphanumeric new.toList maxTokens with
    | some a, some b => (fine noisy old.toList new.toList a b).map (·.getD ([], []))
    | _, _ => some ([], [])

/-- `usize::MAX`. -/
def usizeMax : Nat := 2 ^ 64 - 1

/-- `word_diff_with`, of texts without white space at their ends. -/
def markProse (old new : List Char) (limit : Nat) : Option (Ranges × Ranges) :=
  match tokens alphanumeric old usizeMax, tokens alphanumeric new usizeMax with
  | some a, some b => do
    let ab ← middle old new a b
    if ab.1 = [] ∧ ab.2 = [] then return ([], [])
    if ab.1.length ≤ limit ∧ ab.2.length ≤ limit then
      let marks ← fine noisy old new ab.1 ab.2
      return marks.getD (span ab.1, span ab.2)
    coarse noisy old new limit ab.1 ab.2
  | _, _ => some ([], [])

/-- `word_diff_with`. -/
def wordDiffWith (old new : String) (bytes limit : Nat) : Option (Ranges × Ranges) :=
  if byteLen old.toList > bytes ∨ byteLen new.toList > bytes then some ([], [])
  else markProse alphanumeric noisy (trimEnd old).toList (trimEnd new).toList limit

end WordDiff

end Inline
end Diffz
