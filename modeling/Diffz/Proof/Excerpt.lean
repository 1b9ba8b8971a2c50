import Diffz.Adapters.Process

/-!
# Which excerpts of standard error are safe to show

An excerpt is a line of the words that are read, each of them or `[redacted]`, cut to a limit. It
has no control character and nothing that gives a credential away. But the list of hidden characters
lacks two that it is there for, and what is read of the output may end inside of a credential, which
then is too short to be taken for one.
-/

set_option autoImplicit false

namespace Diffz.Proof.Excerpt

open Diffz.Process

/-! ## Safe lines -/

/-- The bidirectional controls: U+061C, U+200E, U+200F, U+202A to U+202E and U+2066 to U+2069. -/
def bidiControl (c : Char) : Bool :=
  c.toNat == 0x061C || c.toNat == 0x200E || c.toNat == 0x200F ||
    (0x202A ≤ c.toNat && c.toNat ≤ 0x202E) || (0x2066 ≤ c.toNat && c.toNat ≤ 0x2069)

/-- The zero-width format characters: U+200B to U+200D, U+2060 and U+FEFF. -/
def zeroWidth (c : Char) : Bool :=
  (0x200B ≤ c.toNat && c.toNat ≤ 0x200D) || c.toNat == 0x2060 || c.toNat == 0xFEFF

/-- What gives a credential away, wherever it stands in a word. -/
def marks : List String := secretPrefixes ++ ["token=", "private-token:"]

/-- `[redacted]`, also where the end of the line cuts it. -/
def Withheld (piece : List Char) : Prop :=
  piece = redacted ∨ ∃ u, u <+: redacted ∧ piece = u ++ ['…']

/-- The words of the whole output. -/
def inputWords (stderr : Bytes) : List (List Char) := words (fromUtf8Lossy stderr)

/-- What makes a line safe to show for the output it is from. -/
structure Safe (stderr : Bytes) (line : List Char) : Prop where
  shown : line ≠ []
  short : byteLen line ≤ 303
  spaced : ∀ piece ∈ line.splitOn ' ', piece ≠ [] ∧ ∀ c ∈ piece, isWhitespace c = false
  visible : ∀ c ∈ line,
    RepoPath.isControl c = false ∧ bidiControl c = false ∧ zeroWidth c = false
  unmarked : ∀ mark ∈ marks, ¬ mark.toList <:+: lower line
  withheld : ∀ before prev word after, inputWords stderr = before ++ prev :: word :: after →
    redactsNext prev = true → 16 ≤ byteLen word →
    ∀ piece, (line.splitOn ' ')[before.length + 1]? = some piece → Withheld piece

/-! ## What is read of the output -/

/-- Of the words that are read, all but the last are those of the output. -/
theorem readWords_inputWords (stderr : Bytes) : ∃ whole last rest,
    readWords stderr = whole ++ last ∧ inputWords stderr = whole ++ rest ∧ last.length ≤ 1 := by
  obtain ⟨shared, ⟨rest, hrest⟩, hread⟩ :=
    fromUtf8Lossy_append (stderr.take window) (stderr.drop window)
  rw [List.take_append_drop] at hrest
  obtain ⟨whole, last, hlast, hwords⟩ := exists_open_word separates shared
  have hone : ∀ {t : List Char}, (∀ c ∈ t, separates c = false) →
      (wordsBy separates t).length ≤ 1 := by
    intro t ht
    rw [wordsBy_unbroken ht]
    split
    all_goals simp
  have hinput : inputWords stderr = whole ++ wordsBy separates (last ++ rest) := by
    rw [inputWords, words, ← hrest, hwords]
  rcases hread with hread | hread
  · refine ⟨whole, wordsBy separates last, _, ?_, hinput, hone hlast⟩
    rw [readWords, words, hread, ← List.append_nil shared, hwords, List.append_nil]
  · refine ⟨whole, wordsBy separates (last ++ ['\uFFFD']), _, ?_, hinput, hone ?_⟩
    · rw [readWords, words, hread, hwords]
    · intro c hc
      rcases List.mem_append.mp hc with hc | hc
      · exact hlast c hc
      · rw [List.mem_singleton.mp hc]
        decide

/-! ## The words that are shown -/

variable {next : Bool} {ws before after x y : List (List Char)} {s w : List Char} {c : Char}

/-- `redact_next` after these words. -/
def announced : Bool → List (List Char) → Bool
  | next, [] => next
  | _, word :: rest => announced (redactsNext word) rest

/-- Where the word after these begins in the line. -/
def start : Bool → List (List Char) → Nat
  | _, [] => 0
  | next, word :: rest =>
    (if isSecret next word then 10 else byteLen word) + 1 + start (redactsNext word) rest

/-- What stands for a word after these. -/
def shownAs (next : Bool) (word : List Char) : List Char :=
  if isSecret next word then redacted else word

theorem redact_cons (next : Bool) (w : List Char) (ws : List (List Char)) :
    redact next (w :: ws) =
      (if isSecret next w then redacted else w) :: redact (redactsNext w) ws := rfl

theorem announced_append_singleton (next : Bool) (before : List (List Char)) (prev : List Char) :
    announced next (before ++ [prev]) = redactsNext prev := by
  induction before generalizing next with
  | nil => rfl
  | cons w before ih => exact ih (redactsNext w)

theorem extent_redact (next : Bool) (ws : List (List Char)) :
    extent (redact next ws) = start next ws := by
  induction ws generalizing next with
  | nil => rfl
  | cons w ws ih =>
    rw [redact_cons, extent, start, ih]
    split
    · rfl
    · rfl

theorem length_redact (next : Bool) (ws : List (List Char)) :
    (redact next ws).length = ws.length := by
  induction ws generalizing next with
  | nil => rfl
  | cons w ws ih => rw [redact_cons, List.length_cons, List.length_cons, ih]

theorem redact_append (next : Bool) (before after : List (List Char)) :
    redact next (before ++ after) = redact next before ++ redact (announced next before) after := by
  induction before generalizing next with
  | nil => rfl
  | cons w before ih =>
    rw [List.cons_append, redact_cons, redact_cons, ih, List.cons_append]
    rfl

/-- What is shown at a place stands for the word at this place. -/
theorem redact_eq_append (h : redact next ws = x ++ s :: y) : ∃ before word after,
    ws = before ++ word :: after ∧ x = redact next before ∧
      s = shownAs (announced next before) word := by
  induction ws generalizing next x with
  | nil => exact absurd h (by simp [redact])
  | cons w ws ih =>
    rw [redact_cons] at h
    cases x with
    | nil =>
      obtain ⟨hs, -⟩ := List.cons.inj h
      exact ⟨[], w, ws, rfl, rfl, hs.symm⟩
    | cons z x =>
      obtain ⟨rfl, hrest⟩ := List.cons.inj h
      obtain ⟨before, word, after, rfl, rfl, hs⟩ := ih hrest
      exact ⟨w :: before, word, after, rfl, rfl, hs⟩

theorem shown_cases (h : s ∈ redact next ws) :
    s = redacted ∨ ∃ next', s ∈ ws ∧ isSecret next' s = false := by
  obtain ⟨x, y, heq⟩ := List.append_of_mem h
  obtain ⟨before, word, after, rfl, -, hs⟩ := redact_eq_append heq
  rw [shownAs] at hs
  split at hs
  · exact Or.inl hs
  · rename_i hsecret
    subst hs
    exact Or.inr ⟨_, List.mem_append_right before List.mem_cons_self, Bool.eq_false_iff.mpr hsecret⟩

theorem of_mem_shown {stderr : Bytes} (h : s ∈ redact false (readWords stderr)) :
    s ≠ [] ∧ ∀ c ∈ s, separates c = false := by
  rcases shown_cases h with rfl | ⟨-, hmem, -⟩
  · have hall : redacted.all (fun c => !separates c) = true := by decide
    exact ⟨by decide, fun c hc => by simpa using List.all_eq_true.mp hall c hc⟩
  · exact of_mem_wordsBy hmem

theorem marks_plain {mark : String} (h : mark ∈ marks) : mark.toList ≠ [] ∧ ' ' ∉ mark.toList ∧
    '…' ∉ mark.toList ∧ ¬ mark.toList <:+: lower redacted := by
  revert mark
  decide

theorem unmarked_of_not_secret {mark : String} (h : isSecret next s = false)
    (hmark : mark ∈ marks) : ¬ mark.toList <:+: lower s := by
  simp only [isSecret, Bool.or_eq_false_iff] at h
  obtain ⟨⟨⟨⟨-, hprefixes⟩, htoken⟩, hprivate⟩, -⟩ := h
  rcases List.mem_append.mp hmark with hm | hm
  · have := List.any_eq_false.mp hprefixes mark hm
    simpa [hasText] using this
  · rcases List.mem_cons.mp hm with rfl | hm
    · exact of_decide_eq_false htoken
    · obtain rfl := List.mem_singleton.mp hm
      exact of_decide_eq_false hprivate

/-! ## The line -/

/-- The pieces of the line. -/
def shownPieces (stderr : Bytes) : List (List Char) :=
  pieces limit (redact false (readWords stderr))

variable {stderr : Bytes} {line q : List Char}

theorem redact_ne_nil (h : ws ≠ []) (next : Bool) : redact next ws ≠ [] := by
  intro hnil
  rw [← List.length_eq_zero_iff, length_redact, List.length_eq_zero_iff] at hnil
  exact h hnil

theorem stderrExcerpt_eq_some_iff : stderrExcerpt stderr = some line ↔
    readWords stderr ≠ [] ∧ line = joinWords (shownPieces stderr) := by
  by_cases hread : readWords stderr = []
  · rw [stderrExcerpt, hread]
    simp [redact, joinWords]
  · have hred := redact_ne_nil hread false
    have hline : (joinWords (redact false (readWords stderr))).isEmpty = false := by
      obtain ⟨w, hw⟩ := List.exists_mem_of_ne_nil _ hred
      obtain ⟨c, hc⟩ := List.exists_mem_of_ne_nil w (of_mem_shown hw).1
      exact List.isEmpty_eq_false_iff_exists_mem.mpr ⟨c, mem_joinWords_of_mem hw hc⟩
    rw [stderrExcerpt, hline, if_neg (by decide), shorten_joinWords limit hred, Option.some_inj,
      and_iff_right hread]
    exact eq_comm

theorem of_mem_shownPieces (h : q ∈ shownPieces stderr) :
    ∃ s ∈ redact false (readWords stderr), q = s ∨ ∃ u, u <+: s ∧ q = u ++ ['…'] := by
  obtain ⟨i, hi⟩ := List.mem_iff_getElem?.mp h
  obtain ⟨s, hs, hq⟩ := getElem?_pieces hi
  exact ⟨s, List.mem_of_getElem? hs, hq⟩

/-- A piece has characters of words, and an ellipsis perhaps. -/
theorem piece_spaced (h : q ∈ shownPieces stderr) :
    q ≠ [] ∧ ∀ c ∈ q, c = '…' ∨ separates c = false := by
  obtain ⟨s, hs, hq⟩ := of_mem_shownPieces h
  obtain ⟨hne, hsep⟩ := of_mem_shown hs
  rcases hq with rfl | ⟨u, hu, rfl⟩
  · exact ⟨hne, fun c hc => Or.inr (hsep c hc)⟩
  · refine ⟨by simp, fun c hc => ?_⟩
    rcases List.mem_append.mp hc with hc | hc
    · exact Or.inr (hsep c (hu.subset hc))
    · exact Or.inl (List.mem_singleton.mp hc)

theorem splitOn_line (h : readWords stderr ≠ []) :
    (joinWords (shownPieces stderr)).splitOn ' ' = shownPieces stderr := by
  refine List.splitOn_intercalate ' ' (fun q hq hc => ?_) (pieces_ne_nil _ ?_)
  · rcases (piece_spaced hq).2 ' ' hc with h | h
    · exact absurd h (by decide)
    · exact absurd h (by decide)
  · exact redact_ne_nil h false

/-- What is in the line is of the line itself, or of a word and within the limit. -/
theorem mem_line_cases (h : c ∈ joinWords (shownPieces stderr)) :
    c = ' ' ∨ c = '…' ∨
      (separates c = false ∧ Within limit c (redact false (readWords stderr))) := by
  rcases mem_joinWords h with rfl | ⟨q, hq, hc⟩
  · exact Or.inl rfl
  · by_cases hell : c = '…'
    · exact Or.inr (Or.inl hell)
    · have hwithin := (mem_pieces_iff hell).mp ⟨q, hq, hc⟩
      refine Or.inr (Or.inr ⟨?_, hwithin⟩)
      exact ((piece_spaced hq).2 c hc).resolve_left hell

theorem line_unmarked {mark : String} (hmark : mark ∈ marks) :
    ¬ mark.toList <:+: lower (joinWords (shownPieces stderr)) := by
  obtain ⟨hne, hspace, hell, hred⟩ := marks_plain hmark
  intro h
  rw [lower, map_joinWords (by decide)] at h
  obtain ⟨p, hp, hin⟩ := infix_joinWords hne hspace h
  obtain ⟨q, hq, rfl⟩ := List.mem_map.mp hp
  obtain ⟨s, hs, hqs⟩ := of_mem_shownPieces hq
  -- An ellipsis is in no mark, so the mark is in what is shown of the word.
  have hword : mark.toList <:+: lower s := by
    rcases hqs with rfl | ⟨u, hu, rfl⟩
    · exact hin
    · have hsplit : (u ++ ['…']).map Char.toLower = lower u ++ '…' :: [] := List.map_append
      rw [hsplit] at hin
      rcases infix_append_cons hell hin with hin | hin
      · exact hin.trans (hu.map Char.toLower).isInfix
      · exact absurd (List.infix_nil.mp hin) hne
  rcases shown_cases hs with rfl | ⟨next', -, hsecret⟩
  · exact hred hword
  · exact unmarked_of_not_secret hsecret hmark hword

/-! ## What the code misses -/

/-- The hidden characters that are not in the list of the code. -/
def missed (c : Char) : Bool := c.toNat == 0x061C || c.toNat == 0x2060

theorem missed_iff : missed c = true ↔
    (bidiControl c = true ∨ zeroWidth c = true) ∧ Process.hidden c = false := by
  simp only [missed, bidiControl, zeroWidth, Process.hidden, Bool.or_eq_true, Bool.or_eq_false_iff,
    Bool.and_eq_true, Bool.and_eq_false_iff, beq_iff_eq, beq_eq_false_iff_ne, decide_eq_true_eq,
    decide_eq_false_iff_not]
  omega

theorem separates_eq_false (h : separates c = false) :
    isWhitespace c = false ∧ RepoPath.isControl c = false ∧ Process.hidden c = false := by
  simp only [separates, Bool.or_eq_false_iff] at h
  exact ⟨h.1.1, h.1.2, h.2⟩

theorem missed_mem_line_iff (hc : missed c = true) : c ∈ joinWords (shownPieces stderr) ↔
    ∃ before word after u v, readWords stderr = before ++ word :: after ∧
      isSecret (announced false before) word = false ∧ word = u ++ c :: v ∧
      start false before + byteLen u + c.utf8Size ≤ limit := by
  have hne : ∀ d, missed d = false → c ≠ d := by
    rintro d hd rfl
    rw [hc] at hd
    cases hd
  constructor
  · intro h
    rcases mem_line_cases h with h | h | ⟨-, x, s, y, u, v, heq, hs, hle⟩
    · exact absurd h (hne ' ' (by decide))
    · exact absurd h (hne '…' (by decide))
    · obtain ⟨before, word, after, hread, rfl, hshown⟩ := redact_eq_append heq
      rw [extent_redact] at hle
      rw [shownAs] at hshown
      split at hshown
      · have hall : redacted.all (fun d => !missed d) = true := by decide
        have hmem : c ∈ redacted := by
          rw [← hshown, hs]
          exact List.mem_append_right u List.mem_cons_self
        exact absurd rfl (hne c (by simpa using List.all_eq_true.mp hall c hmem))
      · rename_i hsecret
        exact ⟨before, word, after, u, v, hread, Bool.eq_false_iff.mpr hsecret, hshown ▸ hs, hle⟩
  · rintro ⟨before, word, after, u, v, hread, hsecret, hword, hle⟩
    have hwithin : Within limit c (redact false (readWords stderr)) := by
      rw [hread, redact_append, redact, hsecret, if_neg (by decide)]
      exact ⟨_, word, _, u, v, rfl, hword, by rwa [extent_redact]⟩
    obtain ⟨q, hq, hcq⟩ := (mem_pieces_iff (hne '…' (by decide))).mpr hwithin
    exact mem_joinWords_of_mem hq hcq

/-! ## What is read of a credential -/

theorem withheld_of_redacted {n i : Nat} (h : (pieces n ws)[i]? = some q)
    (hred : ws[i]? = some redacted) : Withheld q := by
  obtain ⟨w, hw, hq⟩ := getElem?_pieces h
  obtain rfl : redacted = w := Option.some.inj (hred.symm.trans hw)
  exact hq

theorem getElem?_shown (h : ws = before ++ w :: after) (next : Bool) :
    (redact next ws)[before.length]? = some (shownAs (announced next before) w) := by
  rw [h, redact_append, ← length_redact next before, List.getElem?_append_right le_rfl,
    Nat.sub_self]
  rfl

/-- The last word that is read has a piece where the line reaches it. -/
theorem getElem?_shownPieces_last (hread : readWords stderr = before ++ [w])
    (hsecret : isSecret (announced false before) w = false) :
    (shownPieces stderr)[before.length]? =
      if start false before ≤ limit then some (shorten (limit - start false before) w)
      else none := by
  have hlast := getElem?_pieces_last limit (redact false before) w
  rw [length_redact, extent_redact] at hlast
  rw [shownPieces, hread, redact_append, redact, hsecret, if_neg (by decide), ← hlast]
  rfl

/-! ## The condition -/

/-- No hidden character that the code misses is in a word that is shown, within the limit of the
line. And where the last word that is read is a part of a credential, it is a secret as it is, or
the line does not reach it, or what of it the line has room for is what it has of `[redacted]`. -/
structure Plain (stderr : Bytes) : Prop where
  unseen : ∀ before word after u c v, readWords stderr = before ++ word :: after →
    isSecret (announced false before) word = false → word = u ++ c :: v → missed c = true →
    limit < start false before + byteLen u + c.utf8Size
  whole : ∀ before prev word after part, inputWords stderr = before ++ prev :: word :: after →
    redactsNext prev = true → 16 ≤ byteLen word → readWords stderr = before ++ [prev, part] →
    isSecret true part = false → start false (before ++ [prev]) ≤ limit →
    Withheld (shorten (limit - start false (before ++ [prev])) part)

theorem isSecret_of_long (h : 16 ≤ byteLen w) : isSecret true w = true := by
  simp [isSecret, h]

theorem withheld_of_plain (h : Plain stderr) {prev word : List Char}
    (hinput : inputWords stderr = before ++ prev :: word :: after) (hprev : redactsNext prev = true)
    (hlong : 16 ≤ byteLen word) (hq : (shownPieces stderr)[before.length + 1]? = some q) :
    Withheld q := by
  obtain ⟨shown, hshown, -⟩ := getElem?_pieces hq
  obtain ⟨whole, last, rest, hread, hrest, hone⟩ := readWords_inputWords stderr
  have hlen : before.length + 1 < whole.length + last.length := by
    rw [← List.length_append, ← hread, ← length_redact false (readWords stderr)]
    exact (List.getElem?_eq_some_iff.mp hshown).1
  have hprevs : announced false (before ++ [prev]) = true := by
    rw [announced_append_singleton, hprev]
  have hplace : (before ++ [prev]).length = before.length + 1 := by simp
  have hsplit : whole ++ rest = (before ++ [prev]) ++ word :: after := by
    rw [← hrest, hinput, List.append_assoc, List.singleton_append]
  -- The place is in a list of which only the last word can be another.
  have hcases : (∃ m, readWords stderr = (before ++ [prev]) ++ word :: m) ∨
      ∃ part, readWords stderr = (before ++ [prev]) ++ [part] := by
    rcases List.append_eq_append_iff.mp hsplit with ⟨m, hm, -⟩ | ⟨m, hm, hword⟩
    · have hmlen := congrArg List.length hm
      rw [hplace, List.length_append] at hmlen
      obtain rfl : m = [] := List.length_eq_zero_iff.mp (by omega)
      rw [List.length_nil] at hmlen
      obtain ⟨part, rfl⟩ := List.length_eq_one_iff.mp (show last.length = 1 by omega)
      exact Or.inr ⟨part, by rw [hread, hm, List.append_nil]⟩
    · cases m with
      | nil =>
        rw [List.append_nil] at hm
        rw [hm, hplace] at hlen
        obtain ⟨part, rfl⟩ := List.length_eq_one_iff.mp (show last.length = 1 by omega)
        exact Or.inr ⟨part, by rw [hread, hm]⟩
      | cons x m =>
        obtain ⟨rfl, -⟩ := List.cons.inj hword
        exact Or.inl ⟨m ++ last, by rw [hread, hm, List.append_assoc]; rfl⟩
  rcases hcases with ⟨m, hm⟩ | ⟨part, hpart⟩
  · refine withheld_of_redacted hq ?_
    rw [← hplace, getElem?_shown hm, shownAs, hprevs, isSecret_of_long hlong, if_pos rfl]
  · cases hsecret : isSecret true part with
    | true =>
      refine withheld_of_redacted hq ?_
      rw [← hplace, getElem?_shown hpart, shownAs, hprevs, hsecret, if_pos rfl]
    | false =>
      rw [← hplace, getElem?_shownPieces_last hpart (by rw [hprevs, hsecret])] at hq
      split at hq
      · rename_i hle
        cases hq
        exact h.whole before prev word after part hinput hprev hlong
          (by rw [hpart, List.append_assoc]; rfl) hsecret hle
      · cases hq

theorem plain_of_safe (h : ∀ line, stderrExcerpt stderr = some line → Safe stderr line) :
    Plain stderr := by
  have hsafe : readWords stderr ≠ [] → Safe stderr (joinWords (shownPieces stderr)) :=
    fun hne => h _ (stderrExcerpt_eq_some_iff.mpr ⟨hne, rfl⟩)
  refine ⟨?_, ?_⟩
  · intro before word after u c v hread hsecret hword hc
    by_contra hle
    have hmem := (missed_mem_line_iff hc).mpr
      ⟨before, word, after, u, v, hread, hsecret, hword, by omega⟩
    obtain ⟨-, hbidi, hzero⟩ := (hsafe (by rw [hread]; simp)).visible c hmem
    rcases (missed_iff.mp hc).1 with hshows | hshows
    · rw [hshows] at hbidi
      cases hbidi
    · rw [hshows] at hzero
      cases hzero
  · intro before prev word after part hinput hprev hlong hread hsecret hle
    have hne : readWords stderr ≠ [] := by rw [hread]; simp
    have hread' : readWords stderr = (before ++ [prev]) ++ [part] := by
      rw [hread, List.append_assoc]
      rfl
    have hlast := getElem?_shownPieces_last hread'
      (by rw [announced_append_singleton, hprev, hsecret])
    rw [if_pos hle, List.length_append, List.length_singleton] at hlast
    refine (hsafe hne).withheld before prev word after hinput hprev hlong _ ?_
    rw [splitOn_line hne, hlast]

/-- Where no character is shown that the code misses, none is shown that is not visible. -/
theorem line_visible (h : ∀ c ∈ joinWords (shownPieces stderr), missed c = false)
    (hc : c ∈ joinWords (shownPieces stderr)) :
    RepoPath.isControl c = false ∧ bidiControl c = false ∧ zeroWidth c = false := by
  rcases mem_line_cases hc with rfl | rfl | ⟨hsep, -⟩
  · decide
  · decide
  · obtain ⟨-, hcontrol, hhidden⟩ := separates_eq_false hsep
    have hnone : ¬ (bidiControl c = true ∨ zeroWidth c = true) := by
      intro hshows
      have hmissed := h c hc
      rw [missed_iff.mpr ⟨hshows, hhidden⟩] at hmissed
      cases hmissed
    rw [not_or, Bool.not_eq_true, Bool.not_eq_true] at hnone
    exact ⟨hcontrol, hnone⟩

theorem safe_of_plain (h : Plain stderr) (hline : stderrExcerpt stderr = some line) :
    Safe stderr line := by
  obtain ⟨hne, rfl⟩ := stderrExcerpt_eq_some_iff.mp hline
  have hred := redact_ne_nil hne false
  have hmissed : ∀ c ∈ joinWords (shownPieces stderr), missed c = false := by
    intro c hc
    by_contra hshows
    rw [Bool.not_eq_false] at hshows
    obtain ⟨before, word, after, u, v, hread, hsecret, hword, hle⟩ :=
      (missed_mem_line_iff hshows).mp hc
    have hpast := h.unseen before word after u c v hread hsecret hword hshows
    omega
  refine ⟨?_, ?_, ?_, fun c hc => line_visible hmissed hc, fun mark => line_unmarked, ?_⟩
  · obtain ⟨q, hq⟩ := List.exists_mem_of_ne_nil _ (pieces_ne_nil limit hred)
    obtain ⟨c, hc⟩ := List.exists_mem_of_ne_nil q (piece_spaced hq).1
    exact List.ne_nil_of_mem (mem_joinWords_of_mem hq hc)
  · rw [shownPieces, ← shorten_joinWords limit hred]
    exact byteLen_shorten_le limit _
  · intro q hq
    rw [splitOn_line hne] at hq
    obtain ⟨hshown, hsep⟩ := piece_spaced hq
    refine ⟨hshown, fun c hc => ?_⟩
    rcases hsep c hc with rfl | h
    · decide
    · exact (separates_eq_false h).1
  · intro before prev word after hinput hprev hlong q hq
    rw [splitOn_line hne] at hq
    exact withheld_of_plain h hinput hprev hlong hq

/-- **Which excerpts are safe to show.** -/
theorem stderrExcerpt_safe_iff (stderr : Bytes) :
    (∀ line, stderrExcerpt stderr = some line → Safe stderr line) ↔ Plain stderr :=
  ⟨plain_of_safe, fun h _ hline => safe_of_plain h hline⟩

/-- A word joiner is shown. -/
theorem wordJoiner_shown : ¬ ∀ line, stderrExcerpt [97, 0xE2, 0x81, 0xA0, 98] = some line →
    Safe [97, 0xE2, 0x81, 0xA0, 98] line := by
  intro h
  have hline : stderrExcerpt [97, 0xE2, 0x81, 0xA0, 98] = some ['a', '\u2060', 'b'] := by decide
  have hzero := ((h _ hline).visible '\u2060' (by decide)).2.2
  exact absurd hzero (by decide)

/-- **Output that is read whole and has none of the two is shown safely.** -/
theorem stderrExcerpt_safe (hlen : stderr.length ≤ window)
    (hmissed : ∀ word ∈ inputWords stderr, ∀ c ∈ word, missed c = false)
    (hline : stderrExcerpt stderr = some line) : Safe stderr line := by
  have hall : readWords stderr = inputWords stderr := by
    rw [readWords, List.take_of_length_le hlen, inputWords]
  refine safe_of_plain ⟨?_, ?_⟩ hline
  · intro before word after u c v hread _ hword hc
    have hnot := hmissed word (by rw [← hall, hread]; simp) c (by rw [hword]; simp)
    rw [hc] at hnot
    cases hnot
  · intro before prev word after part hinput _ hlong hread hsecret _
    -- The word is its own part, and it is long.
    rw [hall, hinput] at hread
    obtain ⟨-, hrest⟩ := List.cons.inj (List.append_cancel_left hread)
    obtain ⟨rfl, -⟩ := List.cons.inj hrest
    rw [isSecret_of_long hlong] at hsecret
    cases hsecret

end Diffz.Proof.Excerpt
