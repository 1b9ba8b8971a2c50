import Mathlib.Algebra.Order.Field.Rat
import Mathlib.Algebra.Order.Ring.Abs
import Diffz.Lib.Lts

/-!
# Turning to the next file (`crates/core/src/scroll.rs`)

Reaching the edge of a file arms the gate; a later, separate gesture in the same direction then
pulls against it, and the turn happens once the pull is long enough. Distances are rational, where
the code has `f32`.
-/

set_option autoImplicit false

namespace Diffz

/-- Logical pixels a fresh gesture must pull past a file edge. -/
def pullThreshold : ℚ := 120

structure BoundaryScroll where
  armed : Int
  pulling : Bool
  progress : ℚ
deriving DecidableEq, Repr

namespace BoundaryScroll

/-- `BoundaryScroll::default`. -/
def new : BoundaryScroll := { armed := 0, pulling := false, progress := 0 }

/-- The direction of a wheel movement, of which positive is down. -/
def direction (delta : ℚ) : Int := if 0 < delta then 1 else if delta < 0 then -1 else 0

def stopPull (b : BoundaryScroll) : BoundaryScroll := { b with pulling := false, progress := 0 }

/-- `if fresh { .. }`: a new gesture pulls where the gate is armed at the edge. -/
def started (b : BoundaryScroll) (edge : Int) (fresh : Bool) : BoundaryScroll :=
  if fresh then { b with pulling := b.armed = edge, progress := 0 } else b

/-- `edge` is the boundary the view sits at in the direction of `delta`, or 0, and `fresh` whether
this event starts a new gesture. The result has the direction to turn. -/
def update (b : BoundaryScroll) (edge : Int) (delta : ℚ) (fresh : Bool) :
    BoundaryScroll × Option Int :=
  if edge = 0 then
    (stopPull { b with armed := direction delta }, none)
  else if edge ≠ direction delta then
    (stopPull { b with armed := 0 }, none)
  else if (b.started edge fresh).pulling then
    if pullThreshold ≤ (b.started edge fresh).progress + |delta| then
      (new, some edge)
    else
      ({ b.started edge fresh with progress := (b.started edge fresh).progress + |delta| }, none)
  else
    ({ b.started edge fresh with armed := edge }, none)

/-- A coast (or keyboard jump) stopped at `edge`, so the next gesture may pull. -/
def arm (b : BoundaryScroll) (edge : Int) : BoundaryScroll := stopPull { b with armed := edge }

/-- The finger lifted: a pull in progress is abandoned, the arming stays. -/
def release (b : BoundaryScroll) : BoundaryScroll := b.stopPull

/-- What the window asks of the gate. -/
inductive Call
  | update (edge : Int) (delta : ℚ) (fresh : Bool)
  | arm (edge : Int)
  | release
deriving DecidableEq

/-- The gate after a call, and the direction to turn. -/
def called (b : BoundaryScroll) : Call → BoundaryScroll × Option Int
  | .update edge delta fresh => b.update edge delta fresh
  | .arm edge => (b.arm edge, none)
  | .release => (b.release, none)

def system : Lts BoundaryScroll Call where
  step b c := some (b.called c).1

end BoundaryScroll
end Diffz
