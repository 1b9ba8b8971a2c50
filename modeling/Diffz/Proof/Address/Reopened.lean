import Diffz.Proof.Address.Encoded

/-!
# Reopened texts

What the program relies on of the `url` crate when it reads back an address it has written itself:
`KeepsUrls`. A host that was read from a URL stands for itself in another one, and a path that is
encoded and has no relative segment is kept as it is.

The text of a reopened address is `https://`, a host and an encoded path. It is read as a URL of
that host and path, and it has a relative segment if the host is one or the path has one.
-/

set_option autoImplicit false

namespace Diffz
namespace Proof

open Diffz.Github (encodePath decodePath)

/-- The hosts of addresses: those read from a text, and the public ones the short forms mean. -/
def IsHost (parseUrl : ParseUrl) (host : String) : Prop :=
  host = "github.com" ∨ host = "gitlab.com" ∨
    ∃ text u, startsWith text.toList "https://" = true ∧ parseUrl text = some u ∧
      u.host = some host

/-- A URL that is only a host and a path. -/
def bareUrl (host path : String) : Url :=
  { scheme := "https", username := "", password := none, host := some host, port := none, path,
    query := none, queryPairs := [] }

/-- What `url::Url::parse` documents, as far as reopening an address needs it. -/
structure KeepsUrls (parseUrl : ParseUrl) : Prop where
  kept : ∀ host path, IsHost parseUrl host → relativeSegment (encodePath path).toList = false →
    parseUrl ("https://" ++ host ++ "/" ++ encodePath path) =
      some (bareUrl host ("/" ++ encodePath path))
  noSlash : ∀ host, IsHost parseUrl host → '/' ∉ host.toList
  lowercase : ∀ host, IsHost parseUrl host → asciiLower host = host

/-- A host that a URL path would take for a relative segment. -/
def relativeHost (host : String) : Bool := host = "." || host = ".."

variable {parseUrl : ParseUrl} {host path : String}

theorem trim_eq_self {s : String} (hfirst : ∀ c ∈ s.toList.head?, isWhitespace c = false)
    (hlast : ∀ c ∈ s.toList.getLast?, isWhitespace c = false) : trim s = s := by
  have hstart : s.toList.dropWhile isWhitespace = s.toList := by
    cases h : s.toList with
    | nil => rfl
    | cons c l => rw [List.dropWhile_cons_of_neg (by simp [hfirst c (by simp [h])])]
  have hend : s.toList.rdropWhile isWhitespace = s.toList := by
    rw [List.rdropWhile_eq_self_iff]
    intro hne
    simp [hlast _ (List.getLast?_eq_getLast_of_ne_nil hne)]
  rw [trim, hstart, hend, String.ofList_toList]

theorem trim_trim (s : String) : trim (trim s) = trim s := by
  refine trim_eq_self ?_ ?_
  · intro c hc
    rw [trim, String.toList_ofList] at hc
    have hnot := List.head?_dropWhile_not isWhitespace s.toList
    obtain ⟨t, ht⟩ := List.rdropWhile_prefix isWhitespace (l := s.toList.dropWhile isWhitespace)
    rw [← ht, List.head?_append, Option.mem_def.mp hc] at hnot
    exact hnot
  · intro c hc
    rw [trim, String.toList_ofList] at hc
    have hne : (s.toList.dropWhile isWhitespace).rdropWhile isWhitespace ≠ [] := by
      intro hnil
      rw [hnil] at hc
      cases hc
    have hnot := List.rdropWhile_last_not isWhitespace _ hne
    rw [List.getLast?_eq_getLast_of_ne_nil hne] at hc
    cases hc
    simpa using hnot

/-- What is written for a character can be seen. -/
theorem encodeChar_visible (c : Char) : ∀ x ∈ encodeChar c, isWhitespace x = false := by
  intro x hx
  obtain ⟨y, hy, rfl⟩ := List.mem_map.mp hx
  obtain ⟨b, -, hyb⟩ := List.mem_flatMap.mp hy
  exact (mem_encodeByte b y hyb).2.2.1

/-- The last character of an encoded path is one of its last character. -/
theorem encodePath_getLast? {x : Char} (h : (encodePath path).toList.getLast? = some x) :
    ∃ c, path.toList.getLast? = some c ∧ x ∈ encodeChar c := by
  rw [encodePath_toList] at h
  rcases List.eq_nil_or_concat path.toList with hnil | ⟨init, c, hc⟩
  · rw [hnil] at h
    cases h
  · rw [List.concat_eq_append] at hc
    rw [hc, List.flatMap_append, List.flatMap_singleton,
      List.getLast?_append_of_ne_nil _ (encodeChar_ne_nil c)] at h
    exact ⟨c, by simp [hc], List.mem_of_getLast? h⟩

theorem encodePath_ne_nil (hpath : path ≠ "") : (encodePath path).toList ≠ [] := by
  rw [encodePath_toList]
  intro hnil
  cases hp : path.toList with
  | nil => exact hpath (String.toList_inj.mp hp)
  | cons c l =>
    rw [hp, List.flatMap_cons, List.append_eq_nil_iff] at hnil
    exact encodeChar_ne_nil c hnil.1

/-- The text of a reopened address. -/
def reopenText (host path : String) : String := "https://" ++ host ++ "/" ++ encodePath path

theorem reopenText_toList : (reopenText host path).toList =
    "https:".toList ++ '/' :: ([] ++ '/' :: (host.toList ++ '/' :: (encodePath path).toList)) := by
  simp [reopenText]

theorem trim_reopenText (hpath : path ≠ "") :
    trim (reopenText host path) = reopenText host path := by
  have hne := encodePath_ne_nil hpath
  refine trim_eq_self ?_ ?_
  · rw [reopenText_toList]
    simp [isWhitespace]
  · intro x hx
    have hlast : (reopenText host path).toList.getLast? = (encodePath path).toList.getLast? := by
      rw [reopenText, String.toList_append, List.getLast?_append_of_ne_nil _ hne]
    rw [hlast] at hx
    obtain ⟨c, -, hc⟩ := encodePath_getLast? hx
    exact encodeChar_visible c x hc

theorem startsWith_reopenText : startsWith (reopenText host path).toList "https://" = true := by
  simp [startsWith, reopenText]

theorem relativeSegment_host (h : '/' ∉ host.toList) :
    relativeSegment host.toList = relativeHost host := by
  simp only [relativeSegment, List.splitOn_eq_singleton h, List.any_cons, List.any_nil,
    Bool.or_false, relativeHost, ← String.toList_inj]
  rfl

theorem relativeSegment_reopenText (h : '/' ∉ host.toList) :
    relativeSegment (reopenText host path).toList =
      (relativeHost host || relativeSegment path.toList) := by
  rw [reopenText_toList, relativeSegment_append, relativeSegment_append, relativeSegment_append,
    relativeSegment_host h, encodePath_toList, relativeSegment_flatMap]
  rfl

theorem parseUrl_reopenText (hurl : KeepsUrls parseUrl) (hhost : IsHost parseUrl host)
    (hpath : relativeSegment path.toList = false) :
    parseUrl (reopenText host path) = some (bareUrl host ("/" ++ encodePath path)) :=
  hurl.kept host path hhost (by rw [encodePath_toList, relativeSegment_flatMap, hpath])

/-! ## A reopened URL -/

@[simp] theorem bareUrl_hasAccess (host path : String) : (bareUrl host path).hasAccess = false := rfl

@[simp] theorem bareUrl_scheme (host path : String) : (bareUrl host path).scheme = "https" := rfl

@[simp] theorem bareUrl_host (host path : String) : (bareUrl host path).host = some host := rfl

@[simp] theorem bareUrl_query (host path : String) : (bareUrl host path).query = none := rfl

@[simp] theorem bareUrl_queryPairs (host path : String) : (bareUrl host path).queryPairs = [] := rfl

theorem bareUrl_path : (bareUrl host ("/" ++ encodePath path)).path.toList =
    '/' :: (encodePath path).toList := by
  simp [bareUrl]

theorem pathSegments_bareUrl : (bareUrl host ("/" ++ encodePath path)).pathSegments =
    some ((encodePath path).toList.splitOn '/') := by
  rw [Url.pathSegments, bareUrl_path]
  exact congrArg (Option.map _) (stripPrefix_append ['/'] _)

theorem encodePath_rdropWhile (hlast : path.toList.getLast? ≠ some '/') :
    (encodePath path).toList.rdropWhile (· = '/') = (encodePath path).toList := by
  rw [List.rdropWhile_eq_self_iff]
  intro hl
  rw [decide_eq_true_eq]
  intro hslash
  obtain ⟨c, hc, hmem⟩ := encodePath_getLast? ((List.getLast?_eq_getLast_of_ne_nil hl).trans
    (congrArg some hslash))
  exact hlast (mem_encodeChar (.inl rfl) hmem ▸ hc)

theorem endTrimmed_bareUrl (hne : path ≠ "") (hlast : path.toList.getLast? ≠ some '/') :
    (bareUrl host ("/" ++ encodePath path)).endTrimmed = '/' :: (encodePath path).toList := by
  have hend := List.rdropWhile_eq_self_iff.mp (encodePath_rdropWhile hlast)
  rw [Url.endTrimmed, bareUrl_path, List.rdropWhile_eq_self_iff]
  intro hl
  rw [List.getLast_cons (encodePath_ne_nil hne)]
  exact hend _

theorem trimmed_bareUrl (hfirst : path.toList.head? ≠ some '/')
    (hlast : path.toList.getLast? ≠ some '/') :
    (bareUrl host ("/" ++ encodePath path)).trimmed = (encodePath path).toList := by
  have hstart : (encodePath path).toList.dropWhile (· = '/') = (encodePath path).toList := by
    rw [encodePath_toList]
    cases hp : path.toList with
    | nil => rfl
    | cons c l =>
      obtain ⟨x, xs, hx⟩ := List.exists_cons_of_ne_nil (encodeChar_ne_nil c)
      have hslash : ¬ x = '/' := by
        rintro rfl
        have hc : c = '/' := mem_encodeChar (.inl rfl) (by simp [hx])
        exact hfirst (by simp [hp, hc])
      simp [hx, hslash]
  rw [Url.trimmed, bareUrl_path, List.dropWhile_cons_of_pos (by simp), hstart,
    encodePath_rdropWhile hlast]

/-! ## Relative segments -/

/-- A segment after the first begins after a slash. -/
theorem dot_after_slash {x p : List Char} (h : p ∈ (x.splitOn '/').tail) (hp : p.head? = some '.') :
    ['/', '.'] <:+: x := by
  induction x with
  | nil => simp at h
  | cons c x ih =>
    rw [List.splitOn_cons_eq_if_modifyHead] at h
    split at h
    · rename_i hc
      have hc : c = '/' := by simpa using hc
      rw [List.tail_cons] at h
      cases hx : x.splitOn '/' with
      | nil => exact absurd hx (List.splitOn_ne_nil _ _)
      | cons q qs =>
        rw [hx, List.mem_cons] at h
        rcases h with rfl | h
        · -- The rest begins with this segment.
          cases x with
          | nil =>
            cases hx
            cases hp
          | cons d x =>
            rw [List.splitOn_cons_eq_if_modifyHead] at hx
            split at hx
            · cases hx
              cases hp
            · have hd : p.head? = some d := by
                cases hs : x.splitOn '/' with
                | nil => exact absurd hs (List.splitOn_ne_nil _ _)
                | cons r rs =>
                  rw [hs] at hx
                  cases hx
                  rfl
              rw [hd] at hp
              cases hp
              rw [hc]
              exact ⟨[], x, rfl⟩
        · exact List.infix_cons (ih (by rw [hx]; exact h))
    · refine List.infix_cons (ih ?_)
      cases hx : x.splitOn '/' with
      | nil => exact absurd hx (List.splitOn_ne_nil _ _)
      | cons q qs =>
        rw [hx] at h
        exact h

/-- A path of which the first segment has a character that is no dot, and in which no dot follows a
slash. -/
theorem relativeSegment_eq_false {pre post : List Char} {c : Char} (hpre : '/' ∉ pre)
    (hslash : c ≠ '/') (hdot : c ≠ '.') (hnoDot : ¬ ['/', '.'] <:+: pre ++ c :: post) :
    relativeSegment (pre ++ c :: post) = false := by
  have hfirst : ∀ l : List Char, c ∈ l → l ≠ ['.'] ∧ l ≠ ['.', '.'] := by
    intro l hl
    constructor
    · rintro rfl
      simp [hdot] at hl
    · rintro rfl
      simp [hdot] at hl
  rw [relativeSegment, List.any_eq_false]
  intro p hp
  simp only [Bool.or_eq_true, decide_eq_true_eq, not_or]
  cases hx : (pre ++ c :: post).splitOn '/' with
  | nil => exact absurd hx (List.splitOn_ne_nil _ _)
  | cons q qs =>
    rw [hx, List.mem_cons] at hp
    rcases hp with rfl | hp
    · apply hfirst
      have hsplit : pre ++ c :: post = (pre ++ [c]) ++ post := by simp
      rw [hsplit, splitOn_append_of_not_mem (by simp [hpre, hslash.symm])] at hx
      cases hs : post.splitOn '/' with
      | nil => exact absurd hs (List.splitOn_ne_nil _ _)
      | cons r rs =>
        rw [hs] at hx
        cases hx
        simp
    · have htail : p ∈ ((pre ++ c :: post).splitOn '/').tail := by rw [hx]; exact hp
      constructor
      · rintro rfl
        exact hnoDot (dot_after_slash htail rfl)
      · rintro rfl
        exact hnoDot (dot_after_slash htail rfl)

/-! ## A reader of plain URLs

It decodes the host, as `url` does, and takes only hosts and paths of plain characters. -/

def hostChar (c : Char) : Bool := c.isLower || c.isDigit || c = '-' || c = '.'

def pathChar (c : Char) : Bool := plainChar c || c = '%'

def readPlainUrl : ParseUrl := fun text =>
  match (stripPrefix "https://".toList text.toList).bind (splitOnce ['/']) with
  | none => none
  | some (host, path) =>
    match decodePath host with
    | .error _ => none
    | .ok host =>
      if host.all hostChar ∧ path.all pathChar then
        some (bareUrl (String.ofList host) ("/" ++ String.ofList path))
      else none

theorem plainChar_of_host {c : Char} (h : hostChar c = true) : plainChar c := by
  simp only [hostChar, Bool.or_eq_true, decide_eq_true_eq] at h
  rcases h with ((h | h) | rfl) | rfl
  · simp [plainChar, nameChar, Char.isAlphanum, isAlpha_eq, h]
  · simp [plainChar, nameChar, Char.isAlphanum, h]
  · decide
  · decide

theorem hostChar_ne_slash {c : Char} (h : hostChar c = true) : c ≠ '/' := by
  rintro rfl
  exact absurd h (by decide)

theorem toLower_hostChar {c : Char} (h : hostChar c = true) : c.toLower = c := by
  have hall : ∀ n : Fin 128, hostChar (Char.ofNat n) → (Char.ofNat n).toLower = Char.ofNat n := by
    decide +kernel
  simpa [h] using hall ⟨c.toNat, plainChar_ascii (plainChar_of_host h)⟩

theorem pathChar_encoded (c : Char) : ∀ x ∈ encodeChar c, pathChar x = true := by
  intro x hx
  obtain ⟨y, hy, rfl⟩ := List.mem_map.mp hx
  obtain ⟨b, -, hyb⟩ := List.mem_flatMap.mp hy
  exact (mem_encodeByte b y hyb).2.2.2

theorem readPlainUrl_host {text : String} {u : Url} (h : readPlainUrl text = some u) :
    ∃ host : String, u.host = some host ∧ ∀ c ∈ host.toList, hostChar c = true := by
  unfold readPlainUrl at h
  split at h
  · cases h
  · split at h
    · cases h
    · split at h
      · rename_i hchars
        cases h
        exact ⟨_, rfl, by simpa using hchars.1⟩
      · cases h

theorem hostChar_of_isHost {host : String} (h : IsHost readPlainUrl host) :
    ∀ c ∈ host.toList, hostChar c = true := by
  rcases h with rfl | rfl | ⟨text, u, -, hu, hhost⟩
  · exact List.all_eq_true.mp (by decide)
  · exact List.all_eq_true.mp (by decide)
  · obtain ⟨host', hu', hall⟩ := readPlainUrl_host hu
    rw [hhost] at hu'
    cases hu'
    exact hall

theorem readPlainUrl_keeps : KeepsUrls readPlainUrl := by
  constructor
  · intro host path hhost _
    have hchars := hostChar_of_isHost hhost
    have hslash : '/' ∉ host.toList := fun hm => hostChar_ne_slash (hchars _ hm) rfl
    have htext : ("https://" ++ host ++ "/" ++ encodePath path).toList =
        "https://".toList ++ (host.toList ++ '/' :: (encodePath path).toList) := by simp
    have hdecode : decodePath host.toList = .ok host.toList := by
      have henc := encodePath_plain fun c hc => plainChar_of_host (hchars c hc)
      have hback := decodePath_encodePath host
      rwa [henc] at hback
    have hpath : ∀ c ∈ (encodePath path).toList, pathChar c = true := by
      intro x hx
      rw [encodePath_toList, List.mem_flatMap] at hx
      obtain ⟨c, -, hc⟩ := hx
      exact pathChar_encoded c x hc
    simp only [readPlainUrl, htext, stripPrefix_append, Option.bind_some,
      splitOnce_singleton hslash, hdecode]
    rw [if_pos ⟨by simpa using hchars, by simpa using hpath⟩]
    simp
  · intro host hhost hm
    exact hostChar_ne_slash (hostChar_of_isHost hhost _ hm) rfl
  · intro host hhost
    rw [asciiLower, List.map_congr_left fun c hc => toLower_hostChar (hostChar_of_isHost hhost c hc)]
    simp

end Proof
end Diffz
