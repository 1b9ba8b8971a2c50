import Mathlib.Algebra.GroupWithZero.Nat
import Mathlib.Data.List.Basic
import Diffz.Lib.Lts

/-!
# Parallel reads (`bounded` in `crates/adapters/src/releases.rs`)

A few worker threads call `f` on the items. They take the items by a counter that they share, each
keeps what its calls came to, and the main thread joins them and puts all of it in the order of the
items. An event is an atomic step of one worker; what a call of `f` comes to is part of the event, so
`f` may do anything. The state also says which items `f` was called on, and with what outcome.
-/

set_option autoImplicit false

namespace Diffz.Bounded

/-- `WIDTH`. -/
def width : Nat := 4

/-- The numbers of a `usize`. -/
def usizeCount : Nat := 2 ^ 64

/-- What a call of `f` comes to. -/
inductive Outcome (ρ ε : Type) where
  | ok (r : ρ)
  | err (e : ε)
  | panicked
deriving DecidableEq, Repr

inductive Phase where
  /-- Before `fetch_add`. -/
  | claiming
  /-- In the call of `f` on the item `i`. -/
  | calling (i : Nat)
  /-- Before `store`. -/
  | stopping
  | returned
  | panicked
deriving DecidableEq, Repr

structure Worker (ρ ε : Type) where
  phase : Phase
  done : List (Nat × Except ε ρ)

structure State (ρ ε : Type) where
  next : Nat
  workers : List (Worker ρ ε)
  /-- The items that `f` was called on. -/
  called : List Nat
  /-- What the calls came to that are over. -/
  results : List (Nat × Outcome ρ ε)

inductive Event (ρ ε : Type) where
  | fetch (w : Nat)
  | finish (w : Nat) (outcome : Outcome ρ ε)
  | store (w : Nat)

variable {ρ ε : Type}

def start (len : Nat) : State ρ ε where
  next := 0
  workers := List.replicate (min width len) { phase := .claiming, done := [] }
  called := []
  results := []

/-- The worker after a call of `f` on the item `i`. -/
def Worker.finish (worker : Worker ρ ε) (i : Nat) : Outcome ρ ε → Worker ρ ε
  | .ok r => { phase := .claiming, done := worker.done ++ [(i, .ok r)] }
  | .err e => { phase := .stopping, done := worker.done ++ [(i, .error e)] }
  | .panicked => { worker with phase := .panicked }

/-- One atomic step of a worker, where there are `len` items. -/
def step (len : Nat) (s : State ρ ε) : Event ρ ε → Option (State ρ ε)
  | .fetch w =>
    match s.workers[w]? with
    | some worker =>
      if worker.phase = .claiming then
        let next := (s.next + 1) % usizeCount
        if s.next < len then
          some { s with
            next
            workers := s.workers.set w { worker with phase := .calling s.next }
            called := s.called ++ [s.next] }
        else
          some { s with next, workers := s.workers.set w { worker with phase := .returned } }
      else none
    | none => none
  | .finish w outcome =>
    match s.workers[w]? with
    | some worker =>
      match worker.phase with
      | .calling i =>
        some { s with
          workers := s.workers.set w (worker.finish i outcome)
          results := s.results ++ [(i, outcome)] }
      | _ => none
    | none => none
  | .store w =>
    match s.workers[w]? with
    | some worker =>
      if worker.phase = .stopping then
        some { s with
          next := len
          workers := s.workers.set w { worker with phase := .returned } }
      else none
    | none => none

def threads (len : Nat) : Lts (State ρ ε) (Event ρ ε) where
  step := step len

def Worker.ended (worker : Worker ρ ε) : Bool :=
  match worker.phase with
  | .returned => true
  | .panicked => true
  | _ => false

/-- `join().unwrap_or_default()`. -/
def Worker.join (worker : Worker ρ ε) : List (Nat × Except ε ρ) :=
  if worker.phase = .panicked then [] else worker.done

/-- The results of the joined workers, sorted. -/
def joined (s : State ρ ε) : List (Nat × Except ε ρ) :=
  (s.workers.flatMap Worker.join).mergeSort fun a b => decide (a.1 ≤ b.1)

/-- `bounded`, once all workers have ended; `into` makes an error of a text. -/
def result (into : String → ε) (len : Nat) (s : State ρ ε) : Option (Except ε (List ρ)) :=
  if s.workers.all Worker.ended then
    if (joined s).length ≠ len ∧ (joined s).all fun ir => ir.2.isOk then
      some (.error (into "a release read stopped unexpectedly"))
    else some ((joined s).mapM (·.2))
  else none

end Diffz.Bounded
