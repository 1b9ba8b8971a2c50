import Diffz.Lib.Bisect
import Diffz.Lib.Excerpt
import Diffz.Lib.Spans

/-!
# Display text (`crates/core/src/layout.rs`)

A source line is displayed with its tabs expanded, and a map takes display offsets to source offsets
and back. Both are byte offsets; where a tab ends is a column, and columns count characters.

A column of a caret is between two grapheme clusters. Where these are is for Unicode to say.
-/

set_option autoImplicit false

namespace Diffz

structure DisplayText where
  text : List Char
  /-- Display offsets and the source offsets they stand for; empty where nothing is expanded. -/
  map : List (Nat × Nat)
deriving DecidableEq, Repr

namespace DisplayText

/-- What the loop of `new` carries. -/
structure Expansion where
  text : List Char
  map : List (Nat × Nat)
  column : Nat
deriving DecidableEq, Repr

/-- The character `c` of the display, for the source offset `i`. -/
def Expansion.push (e : Expansion) (i : Nat) (c : Char) : Expansion :=
  { e with map := e.map ++ [(byteLen e.text, i)], text := e.text ++ [c] }

/-- The inner loop: that many spaces for a tab. -/
def pushSpaces (i : Nat) : Nat → Expansion → Expansion
  | 0, e => e
  | n + 1, e => pushSpaces i n (e.push i ' ')

def pushChar (tabSize i : Nat) (c : Char) (e : Expansion) : Expansion :=
  if c = '\t' then
    let n := tabSize - e.column % tabSize
    let e := pushSpaces i n e
    { e with column := e.column + n }
  else
    let e := e.push i c
    { e with column := e.column + 1 }

/-- The loop of `new` over `char_indices`, from the offset `i` on. -/
def expandLoop (tabSize : Nat) : Nat → List Char → Expansion → Expansion
  | _, [], e => e
  | i, c :: rest, e => expandLoop tabSize (i + c.utf8Size) rest (pushChar tabSize i c e)

/-- What `new` does with a text that has a tab. -/
def mapped (source : List Char) (tabSize : Nat) : DisplayText :=
  let tabSize := min (max tabSize 1) 16
  let e := expandLoop tabSize 0 source { text := [], map := [], column := 0 }
  { text := e.text, map := e.map ++ [(byteLen e.text, byteLen source)] }

/-- Tabs expand only; each display boundary maps to original byte offsets. -/
def new (source : List Char) (tabSize : Nat) : DisplayText :=
  if '\t' ∉ source then { text := source, map := [] } else mapped source tabSize

def sourceByte (d : DisplayText) (display : Nat) : Nat :=
  if d.map = [] then min display (byteLen d.text)
  else
    match d.map[bisect (fun e => decide (e.1 ≤ display)) d.map - 1]? with
    | none => 0
    | some e => e.2

def displayByte (d : DisplayText) (source : Nat) : Nat :=
  if d.map = [] then min source (byteLen d.text)
  else
    match d.map[bisect (fun e => decide (e.2 < source)) d.map]? with
    | none => byteLen d.text
    | some e => e.1

end DisplayText

/-! ## Graphemes -/

/-- How a text falls into grapheme clusters, none of which is empty. -/
structure Clusters where
  cut : List Char → List (List Char)
  flatten : ∀ t, (cut t).flatten = t
  filled : ∀ t, ∀ w ∈ cut t, w ≠ []

/-- Where clusters begin, the first one at `n`. -/
def clusterStarts : Nat → List (List Char) → List Nat
  | _, [] => []
  | n, w :: ws => n :: clusterStarts (n + byteLen w) ws

/-- The offsets of `grapheme_indices`. -/
def Clusters.starts (g : Clusters) (t : List Char) : List Nat := clusterStarts 0 (g.cut t)

/-- `snap_grapheme`: a cursor at a boundary stays, and any other goes to the boundary before it. -/
def snapGrapheme (g : Clusters) (t : List Char) (byte : Nat) : Nat :=
  if byteLen t ≤ byte then byteLen t
  else
    let byte := boundaryBelow t byte
    if byte ∈ g.starts t then byte
    else (((g.starts t).takeWhile fun i => decide (i < byte)).getLast?).getD 0

end Diffz
