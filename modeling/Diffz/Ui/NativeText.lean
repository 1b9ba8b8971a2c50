import Mathlib.Algebra.Order.Field.Rat
import Mathlib.Data.Finset.Basic
import Diffz.Lib.Spans

/-!
# Line breaks (`crates/ui/src/native_text.rs`)

A shaped line is broken where its measured clusters no longer fit. Positions are rational, where the
code has `f32`. The outer loop takes fuel: a result is `none` where it runs out, or where the code
panics.
-/

set_option autoImplicit false

namespace Diffz

/-- The offset of a cluster, and where it begins on the line. -/
abbrev Cluster := Nat × ℚ

/-- What the inner loop of `measured_breaks` carries. -/
structure Fit where
  j : Nat
  lastFit : Nat
  lastPreferred : Option Nat
deriving DecidableEq, Repr

/-- The inner loop: `x` is where the line begins. -/
def fitLoop (clusters : List Cluster) (preferred : Finset Nat) (width x : ℚ) (f : Fit) : Fit :=
  if h : f.j < clusters.length then
    if clusters[f.j].2 - x ≤ width then
      fitLoop clusters preferred width x
        { j := f.j + 1
          lastFit := f.j
          lastPreferred := if clusters[f.j].1 ∈ preferred then some f.j else f.lastPreferred }
    else f
  else f
termination_by clusters.length - f.j

/-- The outer loop. -/
def breaksLoop (clusters : List Cluster) (preferred : Finset Nat) (width : ℚ) :
    Nat → Nat → List Span → Option (List Span)
  | 0, _, _ => none
  | fuel + 1, start, parts =>
    if start + 1 < clusters.length then
      match clusters[start]? with
      | none => none
      | some first =>
        let f := fitLoop clusters preferred width first.2
          { j := start + 1, lastFit := start, lastPreferred := none }
        let endIx :=
          if f.j = clusters.length then clusters.length - 1
          else f.lastPreferred.getD (max f.lastFit (start + 1))
        match clusters[endIx]? with
        | none => none
        | some last =>
          breaksLoop clusters preferred width fuel endIx (parts ++ [⟨first.1, last.1⟩])
    else some parts

def measuredBreaks (fuel : Nat) (clusters : List Cluster) (preferred : Finset Nat)
    (width : Option ℚ) : Option (List Span) :=
  let stop := (clusters.getLast?.map (·.1)).getD 0
  match width with
  | none => some [⟨0, stop⟩]
  | some width =>
    if clusters.length < 2 then some [⟨0, stop⟩]
    else
      (breaksLoop clusters preferred (max width 1) fuel 0 []).map fun parts =>
        if parts = [] then [⟨0, stop⟩] else parts

end Diffz
