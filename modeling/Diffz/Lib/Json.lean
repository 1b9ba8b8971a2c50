import Diffz.Lib.Text

/-!
# JSON values

`serde_json::Value` as the program reads it, through indexing and the `as_*` accessors, and as it
writes it. An object keeps its fields in order, since the program hashes what it writes; indexing
finds the first field of a name. A number that is not an integer is kept as its text: nothing here
computes with one, and `as_u64` refuses it.
-/

set_option autoImplicit false

namespace Diffz

/-- The characters of a JSON number. -/
def numeric (c : Char) : Bool := c.isDigit || c ∈ ['-', '+', '.', 'e', 'E']

/-- The text of a number that is not written as an integer. -/
structure FloatText where
  text : String
  numerals : ∀ c ∈ text.toList, numeric c
  inexact : ∃ c ∈ text.toList, c ∈ ['.', 'e', 'E']
deriving Repr

inductive Json
  | null
  | bool (b : Bool)
  | num (n : Int)
  | float (x : FloatText)
  | str (s : String)
  | arr (items : List Json)
  | obj (fields : List (String × Json))
deriving Repr, Inhabited

namespace Json

/-! ## Reading -/

/-- `v[key]`: the field, or null where there is none. -/
def get (j : Json) (key : String) : Json :=
  match j with
  | .obj fields => ((fields.find? fun f => f.1 = key).map (·.2)).getD .null
  | _ => .null

/-- `Value::as_str`. -/
def asStr : Json → Option String
  | .str s => some s
  | _ => none

/-- `Value::as_u64`. -/
def asU64 : Json → Option Nat
  | .num n => if 0 ≤ n then some n.toNat else none
  | _ => none

/-- `Value::as_array`. -/
def asArray : Json → Option (List Json)
  | .arr items => some items
  | _ => none

/-- `v == "text"`. -/
def isStr (j : Json) (s : String) : Bool := j.asStr = some s

/-- `v == true`. -/
def isTrue : Json → Bool
  | .bool b => b
  | _ => false

/-- An optional string; `None` is null. -/
def ofStr? : Option String → Json
  | some s => .str s
  | none => .null

/-- An optional integer without `skip_serializing_if`. -/
def ofNat? : Option Nat → Json
  | some n => .num n
  | none => .null

@[simp] theorem get_obj_cons_eq (key : String) (v : Json) (fields : List (String × Json)) :
    (Json.obj ((key, v) :: fields)).get key = v := by
  simp [get]

theorem get_obj_cons_ne {key name : String} (h : name ≠ key) (v : Json)
    (fields : List (String × Json)) :
    (Json.obj ((name, v) :: fields)).get key = (Json.obj fields).get key := by
  simp [get, h]

@[simp] theorem get_obj_nil (key : String) : (Json.obj []).get key = .null := rfl

@[simp] theorem asStr_str (s : String) : (Json.str s).asStr = some s := rfl

@[simp] theorem asStr_null : Json.null.asStr = none := rfl

@[simp] theorem asU64_null : Json.null.asU64 = none := rfl

@[simp] theorem asU64_natCast (n : Nat) : (Json.num n).asU64 = some n := by
  simp [asU64]

/-! ## Writing -/

end Json

/-- A field under `skip_serializing_if`. -/
def skipNone (key : String) : Option Json → List (String × Json)
  | some v => [(key, v)]
  | none => []

namespace Json

def escape (c : Char) : List Char :=
  if c = '"' then ['\\', '"']
  else if c = '\\' then ['\\', '\\']
  else if c.val = 8 then ['\\', 'b']
  else if c.val = 9 then ['\\', 't']
  else if c.val = 10 then ['\\', 'n']
  else if c.val = 12 then ['\\', 'f']
  else if c.val = 13 then ['\\', 'r']
  else if c.val < 32 then
    ['\\', 'u', '0', '0', Nat.digitChar (c.val.toNat / 16), Nat.digitChar (c.val.toNat % 16)]
  else [c]

def quoted (s : String) : List Char := '"' :: (s.toList.flatMap escape ++ ['"'])

def number (n : Int) : List Char :=
  if n < 0 then '-' :: Nat.toDigits 10 n.natAbs else Nat.toDigits 10 n.natAbs

mutual

/-- The compact form `serde_json::to_string` writes. -/
def render : Json → List Char
  | .null => "null".toList
  | .bool b => if b then "true".toList else "false".toList
  | .num n => number n
  | .float x => x.text.toList
  | .str s => quoted s
  | .arr items => '[' :: renderItems items
  | .obj fields => '\x7b' :: renderFields fields

def renderItems : List Json → List Char
  | [] => [']']
  | [x] => render x ++ [']']
  | x :: xs => render x ++ ',' :: renderItems xs

def renderFields : List (String × Json) → List Char
  | [] => ['\x7d']
  | [f] => renderField f ++ ['\x7d']
  | f :: fs => renderField f ++ ',' :: renderFields fs

def renderField : String × Json → List Char
  | (k, v) => quoted k ++ ':' :: render v

end

/-- `serde_json::to_vec`: the text in UTF-8. -/
def toVec (j : Json) : Bytes := (render j).flatMap String.utf8EncodeChar

end Json
end Diffz
