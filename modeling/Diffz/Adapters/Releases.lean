import Mathlib.Data.String.Basic
import Diffz.Lib.Table

/-!
# Release steps (`crates/adapters/src/releases.rs`)

A compare's commits are cut into steps at the release tags on the first-parent path to its head, and
each step is credited with the commits that it adds. A result is `none` where the code panics: at a
commit that a map does not hold, or at an index out of bounds.
-/

set_option autoImplicit false

namespace Diffz.Releases

/-- `MAX_RELEASES`. -/
def maxReleases : Nat := 30

/-- One step of the timeline: `from` (the previous tag's commit, or the base) to `to`. -/
structure Step where
  /-- `none` for the untagged commits after the last tag. -/
  tag : Option String
  «from» : String
  «to» : String
deriving DecidableEq, Repr

/-! ## Steps -/

/-- The loop along the first parents, where `path` is walked before `sha`. -/
def walk (parents : Table String (Option String)) (limit : Nat) (path : List String)
    (sha : String) : Option (List String) :=
  match parents.find sha with
  | none => none
  | some parent =>
    match parent with
    | none => some (path ++ [sha])
    | some p =>
      if (parents.find p).isSome = true ∧ path.length + 1 ≤ limit then
        walk parents limit (path ++ [sha]) p
      else some (path ++ [sha])
termination_by limit - path.length
decreasing_by
  rw [List.length_append, List.length_singleton]
  omega

/-- The path to the head, from its oldest commit on. -/
def pathTo (range : List (String × Option String)) (head : String) : Option (List String) :=
  let parents := Table.ofList range
  if (parents.find head).isSome then (walk parents range.length [] head).map List.reverse
  else some []

/-- One turn of the loop over the tags, where `placed` has the tag of each position. -/
def place (position : Table String Nat) (released : List String) (placed : Table Nat String)
    (tag : String × String) : Table Nat String :=
  match position.find tag.2 with
  | none => placed
  | some i =>
    match placed.find i with
    | some kept =>
      if kept ∈ released ∨ tag.1 ∉ released then placed else placed.put i tag.1
    | none => placed.put i tag.1

/-- The order of pairs. -/
def pairLe (a b : Nat × String) : Bool := decide (a.1 < b.1) || a.1 == b.1 && decide (a.2 ≤ b.2)

/-- The loop over `placed`, with the commit that the next step is from. -/
def stepsFrom (range : List String) («from» : String) :
    List (Nat × String) → Option (List Step × String)
  | [] => some ([], «from»)
  | (i, name) :: placed =>
    range[i]?.bind fun commit =>
      (stepsFrom range commit placed).map fun r => (⟨some name, «from», commit⟩ :: r.1, r.2)

/-- `steps`, with the tags folded into the first of them. -/
def steps (range : List (String × Option String)) (base head : String)
    (tags : List (String × String)) (released : List String) : Option (List Step × List String) :=
  (pathTo range head).bind fun range =>
    let position := Table.ofList range.zipIdx
    let placed := (tags.foldl (place position released) ∅).entries.map fun e => (e.1, e.2)
    let sorted := placed.mergeSort pairLe
    let folded := (sorted.take (sorted.length - maxReleases)).map (·.2)
    (stepsFrom range base (sorted.drop (sorted.length - maxReleases))).map fun r =>
      match range.getLast? with
      | some head =>
        if r.1 ≠ [] ∧ head ≠ r.2 then (r.1 ++ [⟨none, r.2, head⟩], folded) else (r.1, folded)
      | none => (r.1, folded)

/-! ## Members -/

/-- The commits of the range that are not yet seen. -/
def unseen (parents : Table String (List String)) (seen : List String) : List String :=
  parents.keys.filter fun sha => decide (sha ∉ seen)

theorem unseen_lt {parents : Table String (List String)} {seen up : List String} {sha : String}
    (h : parents.find sha = some up) (hseen : sha ∉ seen) :
    (unseen parents (sha :: seen)).length < (unseen parents seen).length := by
  have hkey : sha ∈ parents.keys := AList.lookup_isSome.mp (by simp [h])
  have hmem : sha ∈ unseen parents seen := List.mem_filter.mpr ⟨hkey, by simpa using hseen⟩
  have hsub : unseen parents (sha :: seen) = (unseen parents seen).filter fun c => decide (c ≠ sha) := by
    rw [unseen, unseen, List.filter_filter]
    exact List.filter_congr fun c _ => by simp [not_or]
  rw [hsub]
  exact List.length_filter_lt_length_iff_exists.mpr ⟨sha, hmem, by simp⟩

/-- The loop of a step, with what is seen and added at its end. The last of `next` is its first. -/
def search (parents : Table String (List String)) (seen : List String) (next added : List String) :
    List String × List String :=
  match next with
  | [] => (seen, added)
  | sha :: next =>
    match _h : parents.find sha with
    | none => search parents seen next added
    | some up =>
      if _hseen : sha ∈ seen then search parents seen next added
      else search parents (sha :: seen) (up.reverse ++ next) (added ++ [sha])
termination_by ((unseen parents seen).length, next.length)
decreasing_by
  · exact Prod.Lex.right _ (Nat.lt_succ_self _)
  · exact Prod.Lex.right _ (Nat.lt_succ_self _)
  · exact Prod.Lex.left _ _ (unseen_lt _h _hseen)

/-- The steps after those that have seen `seen`. -/
def membersFrom (parents : Table String (List String)) (seen : List String) :
    List Step → List (List String)
  | [] => []
  | step :: steps =>
    let found := search parents seen [step.to] []
    found.2 :: membersFrom parents found.1 steps

/-- `members`. -/
def members (range : List (String × List String)) (steps : List Step) : List (List String) :=
  membersFrom (Table.ofList range) [] steps

end Diffz.Releases
