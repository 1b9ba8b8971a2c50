import Diffz.Lib.Json

/-!
# The text of a JSON value determines it

`render_injective`: no two values are written alike. Each form is told by its first character, a
string ends at its first bare quote, and a number ends where the numerals do; the induction is
therefore over a value followed by any text that does not go on with a numeral.
-/

set_option autoImplicit false

namespace Diffz
namespace Json

/-! ## Strings -/

/-- The value of a hexadecimal digit, as `escape` writes it. -/
def hexValue (c : Char) : Nat := if c.isDigit then c.toNat - 48 else c.toNat - 87

/-- The character a backslash and `c` stand for. -/
def unescapeLetter (c : Char) : Char :=
  if c = 'b' then Char.ofNat 8
  else if c = 't' then Char.ofNat 9
  else if c = 'n' then Char.ofNat 10
  else if c = 'f' then Char.ofNat 12
  else if c = 'r' then Char.ofNat 13
  else c

/-- One character of a quoted text, and what follows it. -/
def unescape : List Char → Option (Char × List Char)
  | [] => none
  | c :: rest =>
    if c = '\\' then
      match rest with
      | 'u' :: _ :: _ :: a :: b :: rest => some (Char.ofNat (16 * hexValue a + hexValue b), rest)
      | c :: rest => some (unescapeLetter c, rest)
      | [] => none
    else some (c, rest)

theorem ofNat_hexValue (n : Nat) (h : n < 32) :
    16 * hexValue (Nat.digitChar (n / 16)) + hexValue (Nat.digitChar (n % 16)) = n := by
  have all : ∀ m : Fin 32, 16 * hexValue (Nat.digitChar (m.val / 16)) +
      hexValue (Nat.digitChar (m.val % 16)) = m.val := by decide
  exact all ⟨n, h⟩

theorem eq_ofNat_of_val {c : Char} {n : UInt32} (h : c.val = n) : c = Char.ofNat n.toNat := by
  rw [← h]
  exact (Char.ofNat_toNat c).symm

theorem unescape_escape (c : Char) (rest : List Char) :
    unescape (escape c ++ rest) = some (c, rest) := by
  unfold escape
  split
  · rename_i h
    subst h
    rfl
  split
  · rename_i h
    subst h
    rfl
  split
  · rename_i h
    rw [eq_ofNat_of_val h]
    rfl
  split
  · rename_i h
    rw [eq_ofNat_of_val h]
    rfl
  split
  · rename_i h
    rw [eq_ofNat_of_val h]
    rfl
  split
  · rename_i h
    rw [eq_ofNat_of_val h]
    rfl
  split
  · rename_i h
    rw [eq_ofNat_of_val h]
    rfl
  split
  · rename_i h
    have hv := ofNat_hexValue c.toNat h
    simp [unescape, hv, Char.ofNat_toNat]
  · rename_i hquote hslash _ _ _ _ _ _
    simp [unescape, hslash]

/-- The first character of an escape is never a bare quote. -/
theorem escape_head (c : Char) : ∃ x l, escape c = x :: l ∧ x ≠ '"' := by
  unfold escape
  split
  · exact ⟨_, _, rfl, by decide⟩
  rename_i hquote
  repeat' split
  all_goals first
    | exact ⟨_, _, rfl, by decide⟩
    | exact ⟨_, _, rfl, hquote⟩

theorem flatMap_escape_inj {s s' rest rest' : List Char}
    (h : s.flatMap escape ++ '"' :: rest = s'.flatMap escape ++ '"' :: rest') :
    s = s' ∧ rest = rest' := by
  induction s generalizing s' with
  | nil =>
    cases s' with
    | nil =>
      cases h
      exact ⟨rfl, rfl⟩
    | cons c' s' =>
      obtain ⟨x, l, hx, hne⟩ := escape_head c'
      rw [List.flatMap_nil, List.flatMap_cons, hx] at h
      cases h
      exact absurd rfl hne
  | cons c s ih =>
    cases s' with
    | nil =>
      obtain ⟨x, l, hx, hne⟩ := escape_head c
      rw [List.flatMap_nil, List.flatMap_cons, hx] at h
      cases h
      exact absurd rfl hne
    | cons c' s' =>
      rw [List.flatMap_cons, List.flatMap_cons, List.append_assoc, List.append_assoc] at h
      have hu := congrArg unescape h
      rw [unescape_escape, unescape_escape] at hu
      simp only [Option.some.injEq, Prod.mk.injEq] at hu
      obtain ⟨hs, hrest⟩ := ih hu.2
      exact ⟨by rw [hu.1, hs], hrest⟩

theorem quoted_inj {s s' : String} {rest rest' : List Char}
    (h : quoted s ++ rest = quoted s' ++ rest') : s = s' ∧ rest = rest' := by
  simp only [quoted, List.cons_append, List.cons.injEq, true_and, List.append_assoc,
    List.nil_append] at h
  obtain ⟨hs, hrest⟩ := flatMap_escape_inj h
  exact ⟨String.toList_inj.mp hs, hrest⟩

/-! ## Numbers -/

/-- The text goes on with something that is not part of a number. -/
def Stops (rest : List Char) : Prop := ∀ c ∈ rest.head?, numeric c = false

theorem stops_nil : Stops [] := by
  intro c hc
  cases hc

theorem stops_cons {c : Char} {rest : List Char} (h : numeric c = false) : Stops (c :: rest) := by
  intro x hx
  cases hx
  exact h

theorem takeWhile_numeric {l rest : List Char} (hl : ∀ c ∈ l, numeric c) (hr : Stops rest) :
    (l ++ rest).takeWhile numeric = l := by
  rw [List.takeWhile_append_of_pos hl]
  cases rest with
  | nil => simp
  | cons c rest => simp [hr c rfl]

/-- A number is read off up to where it stops. -/
theorem numerals_inj {l l' rest rest' : List Char} (hl : ∀ c ∈ l, numeric c)
    (hl' : ∀ c ∈ l', numeric c) (hr : Stops rest) (hr' : Stops rest')
    (h : l ++ rest = l' ++ rest') : l = l' ∧ rest = rest' := by
  have ht := congrArg (List.takeWhile numeric) h
  rw [takeWhile_numeric hl hr, takeWhile_numeric hl' hr'] at ht
  subst ht
  exact ⟨rfl, List.append_cancel_left h⟩

theorem numeric_of_isDigit {c : Char} (h : c.isDigit) : numeric c := by
  simp [numeric, h]

theorem number_chars {n : Int} {c : Char} (h : c ∈ number n) : c.isDigit ∨ c = '-' := by
  unfold number at h
  split at h
  · rcases List.mem_cons.mp h with rfl | h
    · exact .inr rfl
    · exact .inl (Nat.isDigit_of_mem_toDigits (by decide) (by decide) h)
  · exact .inl (Nat.isDigit_of_mem_toDigits (by decide) (by decide) h)

theorem number_numeric (n : Int) : ∀ c ∈ number n, numeric c := by
  intro c hc
  rcases number_chars hc with h | rfl
  · exact numeric_of_isDigit h
  · decide

theorem toDigits_inj {m n : Nat} (h : Nat.toDigits 10 m = Nat.toDigits 10 n) : m = n := by
  rw [← Nat.ofDigitChars_ten_toDigits (n := m), h, Nat.ofDigitChars_ten_toDigits]

theorem toDigits_ne_minus {m : Nat} {l : List Char} : Nat.toDigits 10 m ≠ '-' :: l := by
  intro h
  have hd : ('-' : Char).isDigit := by
    refine Nat.isDigit_of_mem_toDigits (b := 10) (n := m) (by decide) (by decide) ?_
    rw [h]
    exact List.mem_cons_self
  cases hd

theorem number_inj {m n : Int} (h : number m = number n) : m = n := by
  unfold number at h
  split at h <;> split at h
  · have := toDigits_inj (List.cons.inj h).2
    omega
  · exact absurd h.symm toDigits_ne_minus
  · exact absurd h toDigits_ne_minus
  · have := toDigits_inj h
    omega

/-- An integer is not written with a point or an exponent. -/
theorem number_ne_float {n : Int} {x : FloatText} : number n ≠ x.text.toList := by
  intro h
  obtain ⟨c, hc, hmark⟩ := x.inexact
  rw [← h] at hc
  rcases number_chars hc with hd | rfl
  · rcases List.mem_cons.mp hmark with rfl | hmark
    · cases hd
    · rcases List.mem_cons.mp hmark with rfl | hmark
      · cases hd
      · cases List.mem_singleton.mp hmark
        cases hd
  · revert hmark
    decide

/-! ## The form of a value is told by its first character -/

/-- The forms a value can have; integers and other numbers begin alike. -/
def form : Json → Nat
  | .null => 0
  | .bool true => 1
  | .bool false => 2
  | .num _ | .float _ => 3
  | .str _ => 4
  | .arr _ => 5
  | .obj _ => 6

/-- The form a first character announces; 7 where no value begins so. -/
def formOf (c : Char) : Nat :=
  if c = 'n' then 0
  else if c = 't' then 1
  else if c = 'f' then 2
  else if numeric c then 3
  else if c = '"' then 4
  else if c = '[' then 5
  else if c = '\x7b' then 6
  else 7

theorem formOf_numeric {c : Char} (h : numeric c) : formOf c = 3 := by
  unfold formOf
  split
  · rename_i hc
    subst hc
    cases h
  split
  · rename_i hc
    subst hc
    cases h
  split
  · rename_i hc
    subst hc
    cases h
  · rfl

theorem head_numerals {l : List Char} (hne : l ≠ []) (hl : ∀ c ∈ l, numeric c) :
    ∃ c rest, l = c :: rest ∧ formOf c = 3 := by
  cases l with
  | nil => exact absurd rfl hne
  | cons c l => exact ⟨c, l, rfl, formOf_numeric (hl c List.mem_cons_self)⟩

theorem number_ne_nil (n : Int) : number n ≠ [] := by
  unfold number
  split
  · exact List.cons_ne_nil _ _
  · exact Nat.toDigits_ne_nil

theorem floatText_ne_nil (x : FloatText) : x.text.toList ≠ [] := by
  obtain ⟨c, hc, -⟩ := x.inexact
  exact List.ne_nil_of_mem hc

theorem render_head (v : Json) : ∃ c l, render v = c :: l ∧ formOf c = form v := by
  cases v with
  | null => exact ⟨'n', ['u', 'l', 'l'], by simp [render], rfl⟩
  | bool b =>
    cases b
    · exact ⟨'f', ['a', 'l', 's', 'e'], by simp [render], rfl⟩
    · exact ⟨'t', ['r', 'u', 'e'], by simp [render], rfl⟩
  | num n =>
    rw [render]
    exact head_numerals (number_ne_nil n) (number_numeric n)
  | float x =>
    rw [render]
    exact head_numerals (floatText_ne_nil x) x.numerals
  | str s => exact ⟨'"', _, by rw [render, quoted], rfl⟩
  | arr items => exact ⟨'[', _, by rw [render], rfl⟩
  | obj fields => exact ⟨'\x7b', _, by rw [render], rfl⟩

theorem form_eq {v v' : Json} {rest rest' : List Char} (h : render v ++ rest = render v' ++ rest') :
    form v = form v' := by
  obtain ⟨c, l, hc, hf⟩ := render_head v
  obtain ⟨c', l', hc', hf'⟩ := render_head v'
  rw [hc, hc'] at h
  rw [← hf, ← hf', (List.cons.inj h).1]

/-- No value begins with a closing bracket. -/
theorem render_ne_close {v : Json} {rest rest' : List Char} {c : Char} (hc : formOf c = 7) :
    render v ++ rest ≠ c :: rest' := by
  intro h
  obtain ⟨x, l, hx, hf⟩ := render_head v
  rw [hx] at h
  rw [(List.cons.inj h).1, hc] at hf
  cases v with
  | bool b => cases b <;> cases hf
  | _ => cases hf

/-! ## Values -/

mutual

theorem render_inj (v v' : Json) (rest rest' : List Char) (hr : Stops rest) (hr' : Stops rest')
    (h : render v ++ rest = render v' ++ rest') : v = v' ∧ rest = rest' := by
  have hform := form_eq h
  match v, v' with
  | .null, .null => exact ⟨rfl, List.append_cancel_left h⟩
  | .bool true, .bool true => exact ⟨rfl, List.append_cancel_left h⟩
  | .bool false, .bool false => exact ⟨rfl, List.append_cancel_left h⟩
  | .num n, .num n' =>
    simp only [render] at h
    obtain ⟨hn, hrest⟩ := numerals_inj (number_numeric n) (number_numeric n') hr hr' h
    exact ⟨congrArg Json.num (number_inj hn), hrest⟩
  | .num n, .float x =>
    simp only [render] at h
    exact absurd (numerals_inj (number_numeric n) x.numerals hr hr' h).1 number_ne_float
  | .float x, .num n =>
    simp only [render] at h
    exact absurd (numerals_inj x.numerals (number_numeric n) hr hr' h).1.symm number_ne_float
  | .float x, .float x' =>
    simp only [render] at h
    obtain ⟨hx, hrest⟩ := numerals_inj x.numerals x'.numerals hr hr' h
    obtain ⟨text, _, _⟩ := x
    obtain ⟨text', _, _⟩ := x'
    obtain rfl : text = text' := String.toList_inj.mp hx
    exact ⟨rfl, hrest⟩
  | .str s, .str s' =>
    simp only [render] at h
    obtain ⟨hs, hrest⟩ := quoted_inj h
    exact ⟨congrArg Json.str hs, hrest⟩
  | .arr items, .arr items' =>
    simp only [render, List.cons_append, List.cons.injEq, true_and] at h
    obtain ⟨hi, hrest⟩ := renderItems_inj items items' rest rest' h
    exact ⟨congrArg Json.arr hi, hrest⟩
  | .obj fields, .obj fields' =>
    simp only [render, List.cons_append, List.cons.injEq, true_and] at h
    obtain ⟨hf, hrest⟩ := renderFields_inj fields fields' rest rest' h
    exact ⟨congrArg Json.obj hf, hrest⟩

theorem renderItems_inj (xs xs' : List Json) (rest rest' : List Char)
    (h : renderItems xs ++ rest = renderItems xs' ++ rest') : xs = xs' ∧ rest = rest' := by
  match xs, xs' with
  | [], [] => exact ⟨rfl, List.append_cancel_left h⟩
  | [], [x'] =>
    simp only [renderItems, List.append_assoc] at h
    exact absurd h.symm (render_ne_close rfl)
  | [], x' :: y' :: xs' =>
    simp only [renderItems, List.append_assoc] at h
    exact absurd h.symm (render_ne_close rfl)
  | [x], [] =>
    simp only [renderItems, List.append_assoc] at h
    exact absurd h (render_ne_close rfl)
  | x :: y :: xs, [] =>
    simp only [renderItems, List.append_assoc] at h
    exact absurd h (render_ne_close rfl)
  | [x], [x'] =>
    simp only [renderItems, List.append_assoc] at h
    obtain ⟨hx, hrest⟩ := render_inj x x' _ _ (stops_cons rfl) (stops_cons rfl) h
    exact ⟨by rw [hx], (List.cons.inj hrest).2⟩
  | [x], x' :: y' :: xs' =>
    simp only [renderItems, List.append_assoc] at h
    obtain ⟨_, hrest⟩ := render_inj x x' _ _ (stops_cons rfl) (stops_cons rfl) h
    cases hrest
  | x :: y :: xs, [x'] =>
    simp only [renderItems, List.append_assoc] at h
    obtain ⟨_, hrest⟩ := render_inj x x' _ _ (stops_cons rfl) (stops_cons rfl) h
    cases hrest
  | x :: y :: xs, x' :: y' :: xs' =>
    simp only [renderItems, List.append_assoc] at h
    obtain ⟨hx, hrest⟩ := render_inj x x' _ _ (stops_cons rfl) (stops_cons rfl) h
    obtain ⟨hxs, hrest⟩ := renderItems_inj (y :: xs) (y' :: xs') rest rest' (List.cons.inj hrest).2
    exact ⟨by rw [hx, hxs], hrest⟩

theorem renderFields_inj (fs fs' : List (String × Json)) (rest rest' : List Char)
    (h : renderFields fs ++ rest = renderFields fs' ++ rest') : fs = fs' ∧ rest = rest' := by
  match fs, fs' with
  | [], [] => exact ⟨rfl, List.append_cancel_left h⟩
  | [], [(k', v')] =>
    simp only [renderFields, renderField, quoted] at h
    cases h
  | [], (k', v') :: f' :: fs' =>
    simp only [renderFields, renderField, quoted] at h
    cases h
  | [(k, v)], [] =>
    simp only [renderFields, renderField, quoted] at h
    cases h
  | (k, v) :: f :: fs, [] =>
    simp only [renderFields, renderField, quoted] at h
    cases h
  | [(k, v)], [(k', v')] =>
    simp only [renderFields, renderField, List.append_assoc] at h
    obtain ⟨hk, h⟩ := quoted_inj h
    obtain ⟨hv, hrest⟩ := render_inj v v' _ _ (stops_cons rfl) (stops_cons rfl) (List.cons.inj h).2
    exact ⟨by rw [hk, hv], (List.cons.inj hrest).2⟩
  | [(k, v)], (k', v') :: f' :: fs' =>
    simp only [renderFields, renderField, List.append_assoc] at h
    obtain ⟨_, h⟩ := quoted_inj h
    obtain ⟨_, hrest⟩ := render_inj v v' _ _ (stops_cons rfl) (stops_cons rfl) (List.cons.inj h).2
    cases hrest
  | (k, v) :: f :: fs, [(k', v')] =>
    simp only [renderFields, renderField, List.append_assoc] at h
    obtain ⟨_, h⟩ := quoted_inj h
    obtain ⟨_, hrest⟩ := render_inj v v' _ _ (stops_cons rfl) (stops_cons rfl) (List.cons.inj h).2
    cases hrest
  | (k, v) :: f :: fs, (k', v') :: f' :: fs' =>
    simp only [renderFields, renderField, List.append_assoc] at h
    obtain ⟨hk, h⟩ := quoted_inj h
    obtain ⟨hv, hrest⟩ := render_inj v v' _ _ (stops_cons rfl) (stops_cons rfl) (List.cons.inj h).2
    obtain ⟨hfs, hrest⟩ :=
      renderFields_inj (f :: fs) (f' :: fs') rest rest' (List.cons.inj hrest).2
    exact ⟨by rw [hk, hv, hfs], hrest⟩

end

/-- **No two values are written alike.** -/
theorem render_injective : Function.Injective render := by
  intro v v' h
  refine (render_inj v v' [] [] stops_nil stops_nil ?_).1
  rw [List.append_nil, List.append_nil, h]

instance : DecidableEq Json := fun v v' =>
  decidable_of_iff (render v = render v') render_injective.eq_iff

theorem toVec_injective : Function.Injective toVec := by
  intro v v' h
  have hs : String.ofList (render v) = String.ofList (render v') := by
    have hu := congrArg fromUtf8 h
    rw [toVec, toVec, ← asBytes_ofList, ← asBytes_ofList, fromUtf8_asBytes, fromUtf8_asBytes] at hu
    exact Option.some.inj hu
  exact render_injective (String.ofList_injective hs)

/-! ## A value is written on one line -/

theorem digitChar_ne_newline {n : Nat} (h : n < 16) : Nat.digitChar n ≠ '\n' := by
  have all : ∀ m : Fin 16, Nat.digitChar m.val ≠ '\n' := by decide
  exact all ⟨n, h⟩

theorem numeric_ne_newline {l : List Char} (h : ∀ c ∈ l, numeric c) : '\n' ∉ l := by
  intro hmem
  cases h '\n' hmem

theorem escape_one_line (c : Char) : '\n' ∉ escape c := by
  unfold escape
  split
  · decide
  split
  · decide
  split
  · decide
  split
  · decide
  split
  · decide
  rename_i hnewline
  split
  · decide
  split
  · decide
  split
  · rename_i hlow
    have hlow : c.val.toNat < 32 := hlow
    intro h
    simp only [List.mem_cons, List.not_mem_nil, or_false] at h
    rcases h with h | h | h | h | h | h
    · cases h
    · cases h
    · cases h
    · cases h
    · exact digitChar_ne_newline (by omega) h.symm
    · exact digitChar_ne_newline (by omega) h.symm
  · intro h
    rw [← List.mem_singleton.mp h] at hnewline
    exact hnewline rfl

theorem quoted_one_line (s : String) : '\n' ∉ quoted s := by
  intro h
  rcases List.mem_cons.mp h with h | h
  · cases h
  rcases List.mem_append.mp h with h | h
  · obtain ⟨c, -, hc⟩ := List.mem_flatMap.mp h
    exact escape_one_line c hc
  · cases List.mem_singleton.mp h

mutual

theorem render_one_line (v : Json) : '\n' ∉ render v := by
  match v with
  | .null => simp [render]
  | .bool true => simp [render]
  | .bool false => simp [render]
  | .num n =>
    rw [render]
    exact numeric_ne_newline (number_numeric n)
  | .float x =>
    rw [render]
    exact numeric_ne_newline x.numerals
  | .str s =>
    rw [render]
    exact quoted_one_line s
  | .arr items => simp [render, renderItems_one_line items]
  | .obj fields => simp [render, renderFields_one_line fields]

theorem renderItems_one_line (xs : List Json) : '\n' ∉ renderItems xs := by
  match xs with
  | [] => simp [renderItems]
  | [x] => simp [renderItems, render_one_line x]
  | x :: y :: xs =>
    simp [renderItems, render_one_line x, renderItems_one_line (y :: xs)]

theorem renderFields_one_line (fs : List (String × Json)) : '\n' ∉ renderFields fs := by
  match fs with
  | [] => simp [renderFields]
  | [(k, v)] => simp [renderFields, renderField, quoted_one_line k, render_one_line v]
  | (k, v) :: f :: fs =>
    simp [renderFields, renderField, quoted_one_line k, render_one_line v,
      renderFields_one_line (f :: fs)]

end

theorem toVec_eq_asBytes (v : Json) : toVec v = asBytes (String.ofList (render v)) :=
  (asBytes_ofList (render v)).symm

theorem toVec_one_line (v : Json) : 10 ∉ toVec v := by
  intro h
  rw [toVec_eq_asBytes] at h
  have hc := mem_toList_of_ascii_mem (c := '\n') (by decide) rfl h
  rw [String.toList_ofList] at hc
  exact render_one_line v hc

end Json
end Diffz
