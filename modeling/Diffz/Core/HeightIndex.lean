import Mathlib.Algebra.Order.Field.Rat
import Diffz.Lib.Fenwick
import Diffz.Lib.Lts

/-!
# Row heights (`crates/core/src/height_index.rs`)

The heights of the rows, with a Fenwick tree of their sums. Heights are rational, where the code has
`f32` and `f64`; an argument is `none` where it is not finite. A result is `none` where the code
panics, or would not end.
-/

set_option autoImplicit false

namespace Diffz

open Fenwick (lowBit)

structure HeightIndex where
  values : List ℚ
  tree : List ℚ
deriving DecidableEq, Repr

/-- The most numbers of 8 bytes a `Vec` holds. -/
def maxCells : Nat := (2 ^ 63 - 1) / 8

namespace HeightIndex

/-- The loop of `set`. -/
def addLoop (delta : ℚ) (i : Nat) (tree : List ℚ) : Option (List ℚ) :=
  if i < tree.length then
    if lowBit 64 i = 0 then none
    else addLoop delta (i + lowBit 64 i) (tree.modify i (· + delta))
  else some tree
termination_by tree.length - i
decreasing_by
  rw [List.length_modify]
  omega

def set (h : HeightIndex) (index : Nat) (value : ℚ) : Option HeightIndex :=
  match h.values[index]? with
  | none => none
  | some before =>
    (addLoop (value - before) (index + 1) h.tree).map fun tree =>
      { values := h.values.set index value, tree }

/-- The height every row begins with. -/
def initial (estimate : Option ℚ) : ℚ :=
  match estimate with
  | some e => if 0 < e then e else 20
  | none => 20

/-- The loop of `new` over the rows from `i` on. -/
def setAll (value : ℚ) : Nat → Nat → HeightIndex → Option HeightIndex
  | 0, _, h => some h
  | count + 1, i, h => (h.set i value).bind (setAll value count (i + 1))

def new (count : Nat) (estimate : Option ℚ) : Option HeightIndex :=
  if maxCells < count + 1 then none
  else setAll (initial estimate) count 0
    { values := List.replicate count 0, tree := List.replicate (count + 1) 0 }

/-- The answer, and the index after it. -/
def update (h : HeightIndex) (index : Nat) (height : Option ℚ) :
    Option (Except String Unit × HeightIndex) :=
  match height with
  | none => some (.error "invalid row height", h)
  | some v =>
    if index ≥ h.values.length ∨ v ≤ 0 then some (.error "invalid row height", h)
    else (h.set index v).map fun h => (.ok (), h)

/-- The loop of `prefix`. -/
def sumLoop (tree : List ℚ) (i : Nat) (sum : ℚ) : Option ℚ :=
  if i = 0 then some sum
  else
    match tree[i]? with
    | none => none
    | some cell =>
      if lowBit 64 i = 0 then none else sumLoop tree (i - lowBit 64 i) (sum + cell)
termination_by i
decreasing_by omega

/-- `prefix`. -/
def prefixSum (h : HeightIndex) (count : Nat) : Option ℚ :=
  sumLoop h.tree (min count h.values.length) 0

def total (h : HeightIndex) : Option ℚ := h.prefixSum h.values.length

/-- `while bit < self.tree.len() { bit <<= 1; }`; a word has as many bits to shift. -/
def startBit (len : Nat) : Nat → Nat → Option Nat
  | 0, _ => none
  | bits + 1, bit => if bit < len then startBit len bits (bit * 2) else some bit

/-- The search of `locate`. -/
def descend (tree : List ℚ) (y : ℚ) (bit index : Nat) (sum : ℚ) : Nat :=
  if bit = 0 then index
  else
    match tree[index + bit]? with
    | none => descend tree y (bit / 2) index sum
    | some cell =>
      if sum + cell ≤ y then descend tree y (bit / 2) (index + bit) (sum + cell)
      else descend tree y (bit / 2) index sum
termination_by bit
decreasing_by all_goals omega

/-- The position inside of the index. -/
def clamped (y : Option ℚ) (total : ℚ) : ℚ :=
  match y with
  | some y => min (max y 0) total
  | none => 0

def locate (h : HeightIndex) (y : Option ℚ) : Option (Nat × ℚ) :=
  if h.values = [] then some (0, 0)
  else do
    let total ← h.total
    let bit ← startBit h.tree.length 64 1
    let i := min (descend h.tree (clamped y total) bit 0 0) (h.values.length - 1)
    let before ← h.prefixSum i
    let height ← h.values[i]?
    return (i, min (max (clamped y total - before) 0) height)

/-- The updates of rows, each with what was measured. -/
def system : Lts HeightIndex (Nat × Option ℚ) where
  step h u := (h.update u.1 u.2).map Prod.snd

end HeightIndex
end Diffz
