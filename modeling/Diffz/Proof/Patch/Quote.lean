import Diffz.Adapters.Github
import Diffz.Proof.Patch.RoundTrip

/-!
# Quoted paths read back

A writer of quoted paths (`Quoting`) writes what `from_git_token` reads, byte by byte, and a quoted
token ends at the quote that closes it. So a `diff --git` line that begins with a quote names both
paths; one that does not is read by looking for ` b/`, and what it names depends on where that occurs.
`quotePath` is one such writer.
-/

set_option autoImplicit false

namespace Diffz
namespace Proof
namespace Patch

open Diffz.Github (plainByte quoteByte quotePath)

/-! ## One byte -/

theorem plainByte_iff {b : UInt8} :
    plainByte b ↔ 32 ≤ b ∧ b < 127 ∧ b ≠ 34 ∧ b ≠ 92 := by
  simp [plainByte, and_assoc]

/-- An octal digit of an escape. -/
theorem octalDigit : ∀ n < 8, RepoPath.isOctal (.ofNat (48 + n)) = true ∧
    (UInt8.ofNat (48 + n)).toNat = 48 + n := by
  decide

/-- The forms a byte may be written in between quotes: escaped, as it is, or in octal. -/
def Spelled (b : UInt8) (l : Bytes) : Prop :=
  (∃ c, l = [92, c] ∧ RepoPath.isOctal c = false ∧ RepoPath.escape c = .ok b) ∨
  (l = [b] ∧ b ≠ 34 ∧ b ≠ 92 ∧ 32 ≤ b) ∨
  ∃ x y z, l = [92, x, y, z] ∧ RepoPath.isOctal x ∧ RepoPath.isOctal y ∧ RepoPath.isOctal z ∧
    ((x.toNat - 48) * 8 + (y.toNat - 48)) * 8 + (z.toNat - 48) = b.toNat

/-- A byte in three octal digits. -/
theorem spelled_octal (b : UInt8) :
    Spelled b [92, .ofNat (48 + b.toNat / 64), .ofNat (48 + b.toNat / 8 % 8),
      .ofNat (48 + b.toNat % 8)] := by
  have hb := b.toNat_lt
  obtain ⟨hx, hvx⟩ := octalDigit (b.toNat / 64) (by omega)
  obtain ⟨hy, hvy⟩ := octalDigit (b.toNat / 8 % 8) (by omega)
  obtain ⟨hz, hvz⟩ := octalDigit (b.toNat % 8) (by omega)
  refine .inr (.inr ⟨_, _, _, rfl, hx, hy, hz, ?_⟩)
  rw [hvx, hvy, hvz]
  omega

theorem quoteByte_spelled (b : UInt8) : Spelled b (quoteByte b) := by
  unfold quoteByte
  split
  · rename_i h
    subst h
    exact .inl ⟨34, rfl, rfl, rfl⟩
  split
  · rename_i h
    subst h
    exact .inl ⟨92, rfl, rfl, rfl⟩
  split
  · rename_i h
    subst h
    exact .inl ⟨116, rfl, rfl, rfl⟩
  split
  · rename_i h
    subst h
    exact .inl ⟨110, rfl, rfl, rfl⟩
  split
  · rename_i hquote hslash _ _ hrange
    exact .inr (.inl ⟨rfl, hquote, hslash, hrange.1⟩)
  · exact spelled_octal b

theorem isOctal_ne {c : UInt8} (h : RepoPath.isOctal c) : c ≠ 92 ∧ c ≠ 34 := by
  constructor
  · rintro rfl
    cases h
  · rintro rfl
    cases h

theorem unquote_plain {b : UInt8} {rest : Bytes} (h34 : b ≠ 34) (h92 : b ≠ 92) :
    RepoPath.unquote (b :: rest) = (RepoPath.unquote rest).map (b :: ·) := by
  rw [RepoPath.unquote.eq_def]
  simp only [if_neg h34, if_pos h92]

theorem Spelled.unquoted {b : UInt8} {l : Bytes} (h : Spelled b l) (rest : Bytes) :
    RepoPath.unquote (l ++ rest) = (RepoPath.unquote rest).map (b :: ·) := by
  rcases h with ⟨c, hc, hoct, hesc⟩ | ⟨hb, h34, h92, -⟩ | ⟨x, y, z, hb, hx, hy, hz, hn⟩
  · rw [hc, RepoPath.unquote.eq_def]
    simp [hoct, hesc]
  · rw [hb]
    exact unquote_plain h34 h92
  · have hoctal : RepoPath.octal 2 (x.toNat - 48) (y :: z :: rest) = (b.toNat, rest) := by
      rw [RepoPath.octal, if_pos hy, RepoPath.octal, if_pos hz, hn]
      cases rest <;> rfl
    have hle : ¬ b.toNat > 255 := by
      have hlt := b.toNat_lt
      omega
    rw [hb, RepoPath.unquote.eq_def]
    simp [hx, hoctal, hle]

theorem Spelled.closing {b : UInt8} {l : Bytes} (h : Spelled b l) (i : Nat) (rest : Bytes) :
    closingQuote false i (l ++ rest) = closingQuote false (i + l.length) rest := by
  rcases h with ⟨c, hc, -⟩ | ⟨hb, h34, h92, -⟩ | ⟨x, y, z, hb, hx, hy, hz, hn⟩
  · rw [hc]
    rfl
  · rw [hb, List.singleton_append, closingQuote, if_neg h92, if_neg h34]
    rfl
  · rw [hb]
    simp only [List.cons_append, List.nil_append, closingQuote, if_true,
      if_neg (isOctal_ne hy).1, if_neg (isOctal_ne hy).2, if_neg (isOctal_ne hz).1,
      if_neg (isOctal_ne hz).2]
    rfl

theorem isOctal_printable {c : UInt8} (h : RepoPath.isOctal c) : 32 ≤ c := by
  unfold RepoPath.isOctal at h
  rw [Bool.and_eq_true, decide_eq_true_eq] at h
  exact UInt8.le_trans (by decide) h.1

/-- What is written between quotes is printable. -/
theorem Spelled.printable {b c : UInt8} {l : Bytes} (h : Spelled b l) (hc : c ∈ l) : 32 ≤ c := by
  rcases h with ⟨x, rfl, -, hesc⟩ | ⟨rfl, -, -, hb⟩ | ⟨x, y, z, rfl, hx, hy, hz, -⟩
  · simp only [List.mem_cons, List.not_mem_nil, or_false] at hc
    rcases hc with rfl | rfl
    · decide
    · unfold RepoPath.escape at hesc
      split at hesc
      case h_10 => cases hesc
      all_goals decide
  · obtain rfl := List.mem_singleton.mp hc
    exact hb
  · simp only [List.mem_cons, List.not_mem_nil, or_false] at hc
    rcases hc with rfl | rfl | rfl | rfl
    · decide
    · exact isOctal_printable hx
    · exact isOctal_printable hy
    · exact isOctal_printable hz

/-- The bytes escapes are made of. -/
def escapeBytes : Bytes := [92, 34, 116, 110, 48, 49, 50, 51, 52, 53, 54, 55]

theorem mem_quoteByte {b c : UInt8} (h : c ∈ quoteByte b) :
    (c = b ∧ 32 ≤ c) ∨ c ∈ escapeBytes := by
  have hdigit : ∀ n < 8, UInt8.ofNat (48 + n) ∈ escapeBytes := by decide
  have hb := b.toNat_lt
  unfold quoteByte at h
  split at h
  · simp only [List.mem_cons, List.not_mem_nil, or_false] at h
    rcases h with rfl | rfl <;> exact .inr (by decide)
  split at h
  · simp only [List.mem_cons, List.not_mem_nil, or_false] at h
    rcases h with rfl | rfl <;> exact .inr (by decide)
  split at h
  · simp only [List.mem_cons, List.not_mem_nil, or_false] at h
    rcases h with rfl | rfl <;> exact .inr (by decide)
  split at h
  · simp only [List.mem_cons, List.not_mem_nil, or_false] at h
    rcases h with rfl | rfl <;> exact .inr (by decide)
  split at h
  · rename_i hrange
    obtain rfl := List.mem_singleton.mp h
    exact .inl ⟨rfl, hrange.1⟩
  · simp only [List.mem_cons, List.not_mem_nil, or_false] at h
    rcases h with rfl | rfl | rfl | rfl
    · exact .inr (by decide)
    · exact .inr (hdigit _ (by omega))
    · exact .inr (hdigit _ (by omega))
    · exact .inr (hdigit _ (by omega))

theorem le_of_mem_quoteByte {b c : UInt8} (h : c ∈ quoteByte b) : 32 ≤ c :=
  (quoteByte_spelled b).printable h

/-! ## Tokens -/

/-- A writer of paths that quotes those with a byte it does not leave as it is. -/
structure Quoting where
  plain : UInt8 → Bool
  spell : UInt8 → Bytes
  plain_text : ∀ b, plain b → 32 ≤ b ∧ b ≠ 34
  spelled : ∀ b, Spelled b (spell b)

/-- The path below a side. -/
def Quoting.token (q : Quoting) (side p : Bytes) : Bytes :=
  if p.all q.plain then side ++ p else 34 :: (side ++ p.flatMap q.spell ++ [34])

theorem plainByte_text (b : UInt8) (h : plainByte b) : 32 ≤ b ∧ b ≠ 34 :=
  ⟨(plainByte_iff.mp h).1, (plainByte_iff.mp h).2.2.1⟩

/-- `quotePath`. -/
def rebuilding : Quoting := ⟨plainByte, quoteByte, plainByte_text, quoteByte_spelled⟩

theorem closingQuote_plain {b : UInt8} (h34 : b ≠ 34) (h92 : b ≠ 92) (i : Nat) (rest : Bytes) :
    closingQuote false i (b :: rest) = closingQuote false (i + 1) rest := by
  rw [closingQuote, if_neg h92, if_neg h34]

theorem unquote_append {side : Bytes} (hside : side.all plainByte) (rest : Bytes) :
    RepoPath.unquote (side ++ rest) = (RepoPath.unquote rest).map (side ++ ·) := by
  induction side with
  | nil =>
    rw [List.nil_append]
    cases RepoPath.unquote rest <;> rfl
  | cons b side ih =>
    rw [List.all_cons, Bool.and_eq_true] at hside
    obtain ⟨-, -, h34, h92⟩ := plainByte_iff.mp hside.1
    rw [List.cons_append, unquote_plain h34 h92, ih hside.2]
    cases RepoPath.unquote rest <;> rfl

theorem closingQuote_append {side : Bytes} (hside : side.all plainByte) (i : Nat) (rest : Bytes) :
    closingQuote false i (side ++ rest) = closingQuote false (i + side.length) rest := by
  induction side generalizing i with
  | nil => rfl
  | cons b side ih =>
    rw [List.all_cons, Bool.and_eq_true] at hside
    obtain ⟨-, -, h34, h92⟩ := plainByte_iff.mp hside.1
    rw [List.cons_append, closingQuote_plain h34 h92, ih hside.2, List.length_cons]
    congr 1
    omega

namespace Quoting

variable {side p : Bytes} (q : Quoting)

theorem token_of_plain (h : p.all q.plain) : q.token side p = side ++ p := if_pos h

theorem token_of_not_plain (h : ¬p.all q.plain) :
    q.token side p = 34 :: (side ++ p.flatMap q.spell ++ [34]) := if_neg h

theorem head?_ne_quote (hside : side.all plainByte) (hp : p.all q.plain) :
    (side ++ p).head? ≠ some 34 := by
  intro h
  rcases List.mem_append.mp (List.mem_of_head? h) with hmem | hmem
  · exact (plainByte_text 34 (List.all_eq_true.mp hside 34 hmem)).2 rfl
  · exact (q.plain_text 34 (List.all_eq_true.mp hp 34 hmem)).2 rfl

theorem unquote_flatMap (p : Bytes) : RepoPath.unquote (p.flatMap q.spell) = .ok p := by
  induction p with
  | nil => rw [List.flatMap_nil, RepoPath.unquote]
  | cons b p ih =>
    rw [List.flatMap_cons, (q.spelled b).unquoted, ih]
    rfl

theorem closingQuote_flatMap (p : Bytes) (i : Nat) (rest : Bytes) :
    closingQuote false i (p.flatMap q.spell ++ rest) =
      closingQuote false (i + (p.flatMap q.spell).length) rest := by
  induction p generalizing i with
  | nil => rfl
  | cons b p ih =>
    rw [List.flatMap_cons, List.append_assoc, (q.spelled b).closing, ih, List.length_append,
      Nat.add_assoc]

/-- **A quoted path reads back.** -/
theorem fromGitToken_token (hside : side.all plainByte) :
    RepoPath.fromGitToken (q.token side p) = RepoPath.new (side ++ p) := by
  by_cases hp : p.all q.plain
  · rw [q.token_of_plain hp, RepoPath.fromGitToken, if_pos (q.head?_ne_quote hside hp)]
  · have hinner : (34 :: (side ++ p.flatMap q.spell ++ [34])).tail.dropLast =
        side ++ p.flatMap q.spell := by
      rw [List.tail_cons, List.dropLast_concat]
    have hends : ¬((34 :: (side ++ p.flatMap q.spell ++ [34])).length < 2 ∨
        (34 :: (side ++ p.flatMap q.spell ++ [34])).getLast? ≠ some 34) := by
      rw [← List.cons_append, List.getLast?_concat, List.length_append, List.length_singleton,
        List.length_cons]
      simp only [ne_eq, not_true, or_false]
      omega
    rw [q.token_of_not_plain hp, RepoPath.fromGitToken, if_neg (by simp), if_neg hends, hinner,
      unquote_append hside, q.unquote_flatMap]
    rfl

/-- A token is printable, so it has neither a line feed nor a tab. -/
theorem le_of_mem_token (hside : side.all plainByte) {c : UInt8} (h : c ∈ q.token side p) :
    32 ≤ c := by
  have hplain : c ∈ side → 32 ≤ c := fun hc => (plainByte_text c (List.all_eq_true.mp hside c hc)).1
  by_cases hp : p.all q.plain
  · rw [q.token_of_plain hp, List.mem_append] at h
    rcases h with h | h
    · exact hplain h
    · exact (q.plain_text c (List.all_eq_true.mp hp c h)).1
  · rw [q.token_of_not_plain hp] at h
    simp only [List.mem_cons, List.mem_append, List.not_mem_nil, or_false] at h
    rcases h with rfl | (h | h) | rfl
    · decide
    · exact hplain h
    · obtain ⟨b, -, hc⟩ := List.mem_flatMap.mp h
      exact (q.spelled b).printable hc
    · decide

end Quoting

section Tokens

variable {side p : Bytes}

theorem quotePath_of_plain (h : p.all plainByte) : quotePath side p = side ++ p := if_pos h

theorem quotePath_of_not_plain (h : ¬p.all plainByte) :
    quotePath side p = 34 :: (side ++ p.flatMap quoteByte ++ [34]) := if_neg h

theorem unquote_flatMap_quoteByte (p : Bytes) :
    RepoPath.unquote (p.flatMap quoteByte) = .ok p := rebuilding.unquote_flatMap p

theorem fromGitToken_quotePath (hside : side.all plainByte) :
    RepoPath.fromGitToken (quotePath side p) = RepoPath.new (side ++ p) :=
  rebuilding.fromGitToken_token hside

theorem le_of_mem_quotePath (hside : side.all plainByte) {c : UInt8} (h : c ∈ quotePath side p) :
    32 ≤ c := rebuilding.le_of_mem_token hside h

end Tokens

/-! ## Paths -/

theorem Quoting.path_token (q : Quoting) {side : Bytes}
    (hside : side = asBytes "a/" ∨ side = asBytes "b/") (p : RepoPath) (i : Nat) :
    path (q.token side p.bytes) i true = .ok p := by
  obtain ⟨c, hc, rfl⟩ : ∃ c : UInt8, (c = 97 ∨ c = 98) ∧ side = [c, 47] := by
    rcases hside with rfl | rfl
    · exact ⟨97, .inl rfl, by decide⟩
    · exact ⟨98, .inr rfl, by decide⟩
  have hplain : ([c, 47] : Bytes).all plainByte := by
    rcases hc with rfl | rfl <;> decide
  have hq : (c :: 47 :: p.bytes).head? ≠ some 34 := by
    rcases hc with rfl | rfl <;> simp
  have hpath := path_side (p := p) (i := i) hc
  rw [path, q.fromGitToken_token hplain]
  rw [path, RepoPath.fromGitToken, if_pos hq] at hpath
  exact hpath

theorem path_quotePath {side : Bytes} (hside : side = asBytes "a/" ∨ side = asBytes "b/")
    (p : RepoPath) (i : Nat) : path (quotePath side p.bytes) i true = .ok p :=
  rebuilding.path_token hside p i

theorem path_quotePath_nil (p : RepoPath) (i : Nat) :
    path (quotePath [] p.bytes) i false = .ok p := by
  rw [path, fromGitToken_quotePath rfl, List.nil_append, new_of_valid]
  rfl

/-- A path that is not quoted is taken when it is valid, and only then. -/
theorem path_unquoted {v : Bytes} (hq : v.head? ≠ some 34) (i : Nat) :
    (validPath v = true → ∃ p, path v i true = .ok p) ∧
      (validPath v = false → ∃ e, path v i true = .error e) := by
  constructor
  · intro hv
    have hside : ∃ p, RepoPath.withoutSide ⟨v, hv⟩ = .ok p := by
      unfold RepoPath.withoutSide
      split
      · rename_i hpre
        have hrest : ∃ c : UInt8, (c = 97 ∨ c = 98) ∧ v = c :: 47 :: v.drop 2 := by
          rcases hpre with hpre | hpre
          · obtain ⟨t, ht⟩ := List.isPrefixOf_iff_prefix.mp hpre
            refine ⟨97, .inl rfl, ?_⟩
            rw [show asBytes "a/" = [97, 47] by decide] at ht
            simp only at ht
            rw [← ht]
            rfl
          · obtain ⟨t, ht⟩ := List.isPrefixOf_iff_prefix.mp hpre
            refine ⟨98, .inr rfl, ?_⟩
            rw [show asBytes "b/" = [98, 47] by decide] at ht
            simp only at ht
            rw [← ht]
            rfl
        obtain ⟨c, hc, hvc⟩ := hrest
        have hdrop : validPath (v.drop 2) = true := (validPath_side_iff hc).mp (hvc ▸ hv)
        exact ⟨⟨v.drop 2, hdrop⟩, dif_pos hdrop⟩
      · exact ⟨_, rfl⟩
    obtain ⟨p, hp⟩ := hside
    refine ⟨p, ?_⟩
    rw [path, RepoPath.fromGitToken, if_pos hq, RepoPath.new, dif_pos hv]
    simp only [hp, if_true]
  · intro hv
    refine ⟨bad i "invalid relative repository path", ?_⟩
    rw [path, RepoPath.fromGitToken, if_pos hq, RepoPath.new, dif_neg (by simp [hv])]

/-! ## The `diff --git` line -/

/-- What stands between the two paths of an unquoted header. -/
def sideMark : Bytes := asBytes " b/"

theorem sideMark_eq : sideMark = [32, 98, 47] := by decide

/-- The mark begins with its only space, so it does not go on over another one. -/
theorem isPrefixOf_append_space (x : UInt8) (a b : Bytes) :
    sideMark.isPrefixOf (x :: a ++ 32 :: b) = sideMark.isPrefixOf (x :: a) := by
  rw [sideMark_eq]
  match a with
  | [] => simp [List.isPrefixOf]
  | [y] => simp [List.isPrefixOf]
  | y :: z :: a => simp [List.isPrefixOf]

theorem occurrences_sideMark (i : Nat) (a b : Bytes) :
    occurrences sideMark i (a ++ (sideMark ++ b)) =
      occurrences sideMark i a ++ (i + a.length) :: occurrences sideMark (i + a.length + 3) b := by
  induction a generalizing i with
  | nil =>
    rw [sideMark_eq]
    simp [occurrences, List.isPrefixOf]
  | cons x a ih =>
    have hpre : sideMark.isPrefixOf (x :: (a ++ (sideMark ++ b))) = sideMark.isPrefixOf (x :: a) :=
      isPrefixOf_append_space x a (98 :: 47 :: b)
    rw [List.cons_append, occurrences, hpre, ih, occurrences, List.append_assoc, List.length_cons,
      Nat.add_right_comm i 1, Nat.add_assoc i]

theorem occurrences_eq_nil_iff {i j : Nat} {l : Bytes} :
    occurrences sideMark i l = [] ↔ occurrences sideMark j l = [] := by
  induction l generalizing i j with
  | nil => exact Iff.rfl
  | cons x l ih =>
    rw [occurrences, occurrences, List.append_eq_nil_iff, List.append_eq_nil_iff, ih (j := j + 1)]
    refine and_congr_left fun _ => ?_
    split <;> simp

/-- Whether ` b/` occurs in a path. -/
def hasSideMark (p : Bytes) : Bool := !(occurrences sideMark 0 p).isEmpty

theorem hasSideMark_eq_false {p : Bytes} (i : Nat) :
    hasSideMark p = false ↔ occurrences sideMark i p = [] := by
  rw [hasSideMark, Bool.not_eq_false', List.isEmpty_iff]
  exact occurrences_eq_nil_iff

namespace Quoting

variable (q : Quoting) {prev name : RepoPath}

/-- The text of a `diff --git` line. -/
def headText (prev name : RepoPath) : Bytes :=
  q.token (asBytes "a/") prev.bytes ++ asBytes " " ++ q.token (asBytes "b/") name.bytes

/-- A quoted previous path ends at its closing quote. -/
theorem headerPaths_quoted (hp : ¬prev.bytes.all q.plain) (i : Nat) :
    headerPaths (q.headText prev name) i = .ok (some prev, some name) := by
  have hold := q.path_token (.inl rfl) prev i
  have hnew := q.path_token (.inr rfl) name i
  rw [q.token_of_not_plain hp] at hold
  have hside : (asBytes "a/").all plainByte := by decide
  have htext : q.headText prev name =
      34 :: (asBytes "a/" ++ (prev.bytes.flatMap q.spell ++
        (34 :: 32 :: q.token (asBytes "b/") name.bytes))) := by
    rw [headText, q.token_of_not_plain hp, show asBytes " " = [32] by decide]
    simp
  have hclose : closingQuote false 1 (q.headText prev name).tail =
      some (1 + (asBytes "a/").length + (prev.bytes.flatMap q.spell).length) := by
    rw [htext, List.tail_cons, closingQuote_append hside, q.closingQuote_flatMap,
      closingQuote, if_neg (by decide), if_pos rfl]
  have hcut : q.headText prev name =
      (34 :: (asBytes "a/" ++ prev.bytes.flatMap q.spell ++ [34])) ++
        (32 :: q.token (asBytes "b/") name.bytes) := by
    rw [htext]
    simp
  have hlen : (34 :: (asBytes "a/" ++ prev.bytes.flatMap q.spell ++ [34])).length =
      1 + (asBytes "a/").length + (prev.bytes.flatMap q.spell).length + 1 := by
    simp only [List.length_cons, List.length_append, List.length_nil]
    omega
  have hhead : (q.headText prev name).head? = some 34 := by
    rw [htext]
    rfl
  unfold headerPaths
  rw [if_pos hhead, hclose]
  dsimp only
  rw [← hlen, hcut, List.drop_left, List.take_left]
  have hdrop : ((34 :: (asBytes "a/" ++ prev.bytes.flatMap q.spell ++ [34])) ++
      (32 :: q.token (asBytes "b/") name.bytes)).drop
      (1 + (asBytes "a/").length + (prev.bytes.flatMap q.spell).length + 2) =
      q.token (asBytes "b/") name.bytes := by
    rw [show 1 + (asBytes "a/").length + (prev.bytes.flatMap q.spell).length + 2 =
      (34 :: (asBytes "a/" ++ prev.bytes.flatMap q.spell ++ [34])).length + 1 by rw [hlen],
      List.drop_length_add_append]
    rfl
  rw [hdrop, hold, hnew]
  rfl

/-- Two unquoted paths are told apart unless one of them has the mark in it. -/
theorem headerPaths_plain (hp : prev.bytes.all q.plain) (hn : name.bytes.all q.plain) (i : Nat) :
    headerPaths (q.headText prev name) i =
      if hasSideMark prev.bytes || hasSideMark name.bytes then .ok (none, none)
      else .ok (some prev, some name) := by
  have htext : q.headText prev name = (97 :: 47 :: prev.bytes) ++ (sideMark ++ name.bytes) := by
    rw [headText, q.token_of_plain hp, q.token_of_plain hn, sideMark,
      show asBytes "a/" = [97, 47] by decide, show asBytes " " = [32] by decide,
      show asBytes "b/" = [98, 47] by decide, show asBytes " b/" = [32, 98, 47] by decide]
    simp
  have hocc : occurrences sideMark 0 (q.headText prev name) = occurrences sideMark 2 prev.bytes ++
      (prev.bytes.length + 2) :: occurrences sideMark (prev.bytes.length + 5) name.bytes := by
    rw [htext, occurrences_sideMark]
    have hfirst : occurrences sideMark 0 (97 :: 47 :: prev.bytes) =
        occurrences sideMark 2 prev.bytes := by
      rw [sideMark_eq]
      simp [occurrences, List.isPrefixOf]
    rw [hfirst, List.length_cons, List.length_cons, Nat.zero_add]
  have hq : (q.headText prev name).head? ≠ some 34 := by
    rw [htext]
    simp
  unfold headerPaths
  rw [if_neg hq, ← sideMark, hocc]
  cases hpm : hasSideMark prev.bytes with
  | true =>
    have hne := (hasSideMark_eq_false (p := prev.bytes) 2).not.mp (by simp [hpm])
    obtain ⟨k, ks, hk⟩ := List.exists_cons_of_ne_nil hne
    rw [hk, List.cons_append]
    cases ks <;> rfl
  | false =>
    rw [(hasSideMark_eq_false 2).mp hpm, List.nil_append]
    cases hnm : hasSideMark name.bytes with
    | true =>
      have hne := (hasSideMark_eq_false (p := name.bytes) (prev.bytes.length + 5)).not.mp
        (by simp [hnm])
      obtain ⟨k, ks, hk⟩ := List.exists_cons_of_ne_nil hne
      rw [hk]
      rfl
    | false =>
      rw [(hasSideMark_eq_false (prev.bytes.length + 5)).mp hnm]
      have hlen : prev.bytes.length + 2 = (97 :: 47 :: prev.bytes).length := rfl
      have hdrop : (q.headText prev name).drop (prev.bytes.length + 2 + 1) =
          98 :: 47 :: name.bytes := by
        rw [htext, hlen, List.drop_length_add_append, sideMark_eq]
        rfl
      have htake : (q.headText prev name).take (prev.bytes.length + 2) = 97 :: 47 :: prev.bytes := by
        rw [htext, hlen, List.take_left]
      simp only [hdrop, htake, path_side (.inl rfl), path_side (.inr rfl), bind, Except.bind, pure,
        Except.pure]
      rfl

/-- The line names the path twice, unless it is plain and has the mark in it. -/
theorem headerPaths_twice (p : RepoPath) (i : Nat) :
    headerPaths (q.headText p p) i =
      if p.bytes.all q.plain && hasSideMark p.bytes then .ok (none, none)
      else .ok (some p, some p) := by
  by_cases hp : p.bytes.all q.plain
  · rw [q.headerPaths_plain hp hp, Bool.or_self, hp, Bool.true_and]
  · rw [q.headerPaths_quoted hp, Bool.eq_false_iff.mpr hp, Bool.false_and]
    rfl

/-- A marker names the path up to a tab, if there is one. -/
theorem markerPath_token {side : Bytes} (hside : side = asBytes "a/" ∨ side = asBytes "b/")
    (p : RepoPath) {tab : Bytes} (htab : tab = [] ∨ ∃ rest, tab = 9 :: rest) (i : Nat) :
    markerPath (q.token side p.bytes ++ tab) i = .ok (some p) := by
  have hplain : side.all plainByte := by rcases hside with rfl | rfl <;> decide
  have hno : (9 : UInt8) ∉ q.token side p.bytes := by
    intro h
    exact absurd (q.le_of_mem_token hplain h) (by decide)
  have hnull : q.token side p.bytes ≠ devNull := by
    intro h
    have hpath := q.path_token hside p i
    obtain ⟨e, he⟩ := (path_unquoted (v := devNull) (by decide) i).2 (by decide)
    rw [h, he] at hpath
    cases hpath
  have hhead : ((q.token side p.bytes ++ tab).splitOn 9).headD (q.token side p.bytes ++ tab) =
      q.token side p.bytes := by
    rcases htab with rfl | ⟨rest, rfl⟩
    · rw [List.append_nil, List.splitOn_eq_singleton hno]
      rfl
    · rw [List.splitOn_append_cons_self_of_not_mem hno]
      rfl
  simp only [markerPath, hhead, if_neg hnull, q.path_token hside p i]

end Quoting

/-- The text of a `diff --git` line of a rebuilt patch. -/
def headText (prev name : RepoPath) : Bytes :=
  quotePath (asBytes "a/") prev.bytes ++ asBytes " " ++ quotePath (asBytes "b/") name.bytes

section Head

variable {prev name : RepoPath}

theorem headerPaths_quoted (hp : ¬prev.bytes.all plainByte) (i : Nat) :
    headerPaths (headText prev name) i = .ok (some prev, some name) :=
  rebuilding.headerPaths_quoted hp i

theorem headerPaths_plain (hp : prev.bytes.all plainByte) (hn : name.bytes.all plainByte) (i : Nat) :
    headerPaths (headText prev name) i =
      if hasSideMark prev.bytes || hasSideMark name.bytes then .ok (none, none)
      else .ok (some prev, some name) := rebuilding.headerPaths_plain hp hn i

end Head

end Patch
end Proof
end Diffz
