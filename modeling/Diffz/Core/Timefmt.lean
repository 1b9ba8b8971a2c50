/-!
# Timestamps (`crates/core/src/timefmt.rs`)

A second count becomes a date by integer arithmetic on a `u64`. An operation whose result does not
fit has none here.
-/

set_option autoImplicit false

namespace Diffz
namespace Timefmt

/-- One more than the largest `u64`. -/
def u64Size : Nat := 18446744073709551616

def add (a b : Nat) : Option Nat := if a + b < u64Size then some (a + b) else none

def mul (a b : Nat) : Option Nat := if a * b < u64Size then some (a * b) else none

def sub (a b : Nat) : Option Nat := if b ≤ a then some (a - b) else none

/-- Year, month and day of a day counted from the Unix epoch. -/
def civilFromDays (z : Nat) : Option (Nat × Nat × Nat) := do
  let z ← add z 719468
  let era := z / 146097
  let doe ← sub z (← mul era 146097)
  let yoe := (← sub (← add (← sub doe (doe / 1460)) (doe / 36524)) (doe / 146096)) / 365
  let year ← add yoe (← mul era 400)
  let doy ← sub doe (← sub (← add (← mul 365 yoe) (yoe / 4)) (yoe / 100))
  let mp := (← add (← mul 5 doy) 2) / 153
  let day ← add (← sub doy ((← add (← mul 153 mp) 2) / 5)) 1
  let month ← if mp < 10 then add mp 3 else sub mp 9
  return (← add year (if month ≤ 2 then 1 else 0), month, day)

/-- A number in decimal, with zeros in front up to a width. -/
def padded (width n : Nat) : String :=
  String.ofList ((Nat.toDigits 10 n).leftpad width '0')

def secondsPerDay : Nat := 86400

def shortUnixTimestamp (secs : Nat) : Option String := do
  let days := secs / secondsPerDay
  let secsInDay := secs % secondsPerDay
  let (year, month, day) ← civilFromDays days
  let hour := secsInDay / 3600
  let minute := (secsInDay % 3600) / 60
  return padded 4 year ++ "-" ++ padded 2 month ++ "-" ++ padded 2 day ++ " " ++ padded 2 hour ++
    ":" ++ padded 2 minute

end Timefmt
end Diffz
