import Mathlib.Data.Option.Basic
import Mathlib.Data.List.Basic
import Diffz.Lib.Json

/-!
# Reading records from JSON

What the readers that `serde` derives do with an object: a field is found by its name, a name that
comes twice is refused, a field nobody asks for is passed over, and a missing field is refused unless
it has a default. A reader is a function to `Option`; `Reads read write ok` says that it takes back
what was written.
-/

set_option autoImplicit false

namespace Diffz
namespace Json

variable {α β : Type}

/-- The value of the fields of one name: none, one, or a refusal. -/
def lone : List (String × Json) → Option (Option Json)
  | [] => some none
  | [f] => some (some f.2)
  | _ => none

/-- The field of an object, if there is one. -/
def field (j : Json) (key : String) : Option (Option Json) :=
  match j with
  | .obj fields => lone (fields.filter fun f => f.1 = key)
  | _ => none

/-- A field without a default. -/
def required (j : Json) (key : String) (read : Json → Option α) : Option α :=
  (j.field key).bind fun v => v.bind read

/-- `Option<T>`; null is `None`. -/
def asOption (read : Json → Option α) : Json → Option (Option α)
  | .null => some none
  | v => (read v).map some

/-- A field under `#[serde(default)]`. -/
def orDefault (j : Json) (key : String) (read : Json → Option α) (default : α) : Option α :=
  (j.field key).bind fun v => (v.map read).getD (some default)

/-- A field of type `Option<T>`, which may be missing. -/
def optional (j : Json) (key : String) (read : Json → Option α) : Option (Option α) :=
  j.orDefault key (asOption read) none

def asBool : Json → Option Bool
  | .bool b => some b
  | _ => none

/-- The number has at most `w` bits. -/
def InWidth (w n : Nat) : Prop := n < 2 ^ w

instance (w n : Nat) : Decidable (InWidth w n) := inferInstanceAs (Decidable (n < 2 ^ w))

/-- An unsigned integer of `w` bits. -/
def asUint (w : Nat) : Json → Option Nat
  | .num n => if 0 ≤ n ∧ InWidth w n.toNat then some n.toNat else none
  | _ => none

/-- `Vec<T>`. -/
def asList (read : Json → Option α) : Json → Option (List α)
  | .arr items => items.mapM read
  | _ => none

/-! ## What was written is read -/

/-- `read` takes back what `write` wrote of the values in `ok`. -/
def Reads (read : Json → Option α) (write : α → Json) (ok : α → Prop) : Prop :=
  ∀ a, ok a → read (write a) = some a

@[simp] theorem lone_skipNone (key : String) (v : Option Json) : lone (skipNone key v) = some v := by
  cases v <;> rfl

@[simp] theorem lone_nil : lone [] = some none := rfl

@[simp] theorem lone_single (f : String × Json) : lone [f] = some (some f.2) := rfl

@[simp] theorem filter_skipNone (key name : String) (v : Option Json) :
    (skipNone name v).filter (fun f => f.1 = key) = if name = key then skipNone name v else [] := by
  cases v with
  | none => exact (ite_self []).symm
  | some v => simp [skipNone, List.filter_cons]

@[simp] theorem asStr_ofStr? (s : Option String) : asOption asStr (ofStr? s) = some s := by
  cases s <;> rfl

@[simp] theorem asBool_bool (b : Bool) : asBool (.bool b) = some b := rfl

theorem asUint_natCast {w n : Nat} (h : InWidth w n) : asUint w (.num n) = some n := by
  simp [asUint, h]

theorem asUint_ofNat? {w : Nat} {n : Option Nat} (h : ∀ m ∈ n, InWidth w m) :
    asOption (asUint w) (ofNat? n) = some n := by
  cases n with
  | none => rfl
  | some m => simp [ofNat?, asOption, asUint_natCast (h m rfl)]

theorem mapM_map_eq_some {f : β → Option α} {g : α → β} {l : List α} (h : ∀ a ∈ l, f (g a) = some a) :
    (l.map g).mapM f = some l := by
  induction l with
  | nil => rfl
  | cons a l ih =>
    rw [List.map_cons, List.mapM_cons, h a List.mem_cons_self,
      ih fun b hb => h b (List.mem_cons_of_mem a hb)]
    rfl

theorem Reads.list {read : Json → Option α} {write : α → Json} {ok : α → Prop}
    (h : Reads read write ok) : Reads (asList read) (fun l => .arr (l.map write))
      (fun l => ∀ a ∈ l, ok a) :=
  fun _ hl => mapM_map_eq_some fun a ha => h a (hl a ha)

/-- A value that is never written as null. -/
theorem Reads.option {read : Json → Option α} {write : α → Json} {ok : α → Prop}
    (h : Reads read write ok) (hnull : ∀ a, write a ≠ .null) :
    Reads (asOption read) (fun o => (o.map write).getD .null) (fun o => ∀ a ∈ o, ok a) := by
  intro o ho
  cases o with
  | none => rfl
  | some a =>
    have hread := h a (ho a rfl)
    have hne := hnull a
    simp only [Option.map_some, Option.getD_some]
    unfold asOption
    split
    · rename_i heq
      exact absurd heq hne
    · rw [hread]
      rfl

/-- An optional field under `skip_serializing_if`. -/
theorem Reads.skipped {read : Json → Option α} {write : α → Json} {ok : α → Prop}
    (h : Reads read write ok) (hnull : ∀ a, write a ≠ .null) {o : Option α} (ho : ∀ a ∈ o, ok a) :
    (o.map (asOption read ∘ write)).getD (some none) = some o := by
  cases o with
  | none => rfl
  | some a => exact h.option hnull (some a) ho

/-! ## What a parser takes -/

/-- A document of integers of 64 bits, nested at most `d` deep. -/
inductive Plain : Nat → Json → Prop
  | null {d : Nat} : Plain d .null
  | bool {d : Nat} (b : Bool) : Plain d (.bool b)
  | num {d n : Nat} : InWidth 64 n → Plain d (.num n)
  | str {d : Nat} (s : String) : Plain d (.str s)
  | arr {d : Nat} {items : List Json} : (∀ j ∈ items, Plain d j) → Plain (d + 1) (.arr items)
  | obj {d : Nat} {fields : List (String × Json)} :
      (∀ f ∈ fields, Plain d f.2) → Plain (d + 1) (.obj fields)

/-- What is asked of `serde_json::from_slice`: it takes back what `to_vec` wrote, up to its limit on
the nesting. -/
def ParsesBack (parse : Bytes → Option Json) : Prop := ∀ j, Plain 127 j → parse (toVec j) = some j

/-- The same of `from_str` on a line, whose end is passed over. -/
def ParsesLine (parse : Bytes → Option Json) : Prop :=
  ∀ j, Plain 127 j → parse (toVec j ++ [10]) = some j

section Plain

variable {d : Nat}

attribute [simp] Plain.null Plain.bool Plain.str

theorem InWidth.le {v w n : Nat} (h : InWidth v n) (hvw : v ≤ w) : InWidth w n :=
  lt_of_lt_of_le h (Nat.pow_le_pow_right (by decide) hvw)

@[simp] theorem plain_ofStr? (s : Option String) : Plain d (ofStr? s) := by
  cases s
  · exact .null
  · exact .str _

theorem plain_ofNat? {n : Option Nat} (h : ∀ m ∈ n, InWidth 64 m) : Plain d (ofNat? n) := by
  cases n with
  | none => exact .null
  | some m => exact .num (h m rfl)

theorem plain_map {write : α → Json} {l : List α} (h : ∀ a ∈ l, Plain d (write a)) :
    Plain (d + 1) (.arr (l.map write)) := by
  refine .arr ?_
  intro j hj
  obtain ⟨a, ha, rfl⟩ := List.mem_map.mp hj
  exact h a ha

theorem plain_option {write : α → Json} {o : Option α} (h : ∀ a ∈ o, Plain d (write a)) :
    Plain d ((o.map write).getD .null) := by
  cases o with
  | none => exact .null
  | some a => exact h a rfl

/-- The fields of an object, one by one. -/
def PlainFields (d : Nat) (fields : List (String × Json)) : Prop := ∀ f ∈ fields, Plain d f.2

@[simp] theorem plain_obj {fields : List (String × Json)} :
    Plain (d + 1) (.obj fields) ↔ PlainFields d fields :=
  ⟨fun h => by cases h with | obj h => exact h, .obj⟩

@[simp] theorem plainFields_nil : PlainFields d [] := nofun

@[simp] theorem plainFields_cons {key : String} {v : Json} {fields : List (String × Json)} :
    PlainFields d ((key, v) :: fields) ↔ Plain d v ∧ PlainFields d fields :=
  List.forall_mem_cons

@[simp] theorem plainFields_append {fields more : List (String × Json)} :
    PlainFields d (fields ++ more) ↔ PlainFields d fields ∧ PlainFields d more :=
  List.forall_mem_append

@[simp] theorem plainFields_skipNone {key : String} {v : Option Json} :
    PlainFields d (skipNone key v) ↔ ∀ j ∈ v, Plain d j := by
  cases v <;> simp [skipNone]

end Plain

end Json
end Diffz
