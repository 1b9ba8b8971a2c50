import Diffz.Adapters.Address
import Diffz.Lib.Fallible
import Diffz.Lib.Search

/-!
# The HTTP response a CLI prints (`github.rs`)

`gh api -i` and `glab api -i` print the header blocks of the interim responses, those of the
response, and the bytes of the body, all in one stream. `decode_http` takes it apart.
-/

set_option autoImplicit false

namespace Diffz
namespace Http

structure HttpResponse where
  status : Nat
  headers : String
  body : Bytes
deriving Repr, DecidableEq

/-- `b"\r\n\r\n"`. -/
def crlfGap : Bytes := [13, 10, 13, 10]

/-- `b"\n\n"`. -/
def lfGap : Bytes := [10, 10]

/-- What stands before the end of the headers and what stands after it. The second style is looked
for where the first occurs nowhere in the output. -/
def splitHeaders (bytes : Bytes) : Option (Bytes × Bytes) :=
  match splitOnce crlfGap bytes with
  | some cut => some cut
  | none => splitOnce lfGap bytes

def u16Max : Nat := 65535

/-- `str::parse::<u16>`. -/
def parseU16 (s : List Char) : Option Nat :=
  if unsigned s ≠ [] ∧ (unsigned s).all Char.isDigit ∧
      Nat.ofDigitChars 10 (unsigned s) 0 ≤ u16Max then
    some (Nat.ofDigitChars 10 (unsigned s) 0)
  else none

/-- The status of the first line of the headers. -/
def lineStatus (line : List Char) : Except String Nat :=
  let first := splitWhitespace (String.ofList line)
  if ¬ startsWith (first.head?.getD "").toList "HTTP/" then
    .error "gh did not print an HTTP response"
  else
    match ((first.tail.head?).bind fun s => parseU16 s.toList).filter fun s =>
      100 ≤ s && s < 600 with
    | some status => .ok status
    | none => .error "invalid HTTP status"

def headerStatus (headers : String) : Except String Nat :=
  match (textLines headers.toList).head? with
  | none => .error "missing HTTP status"
  | some line => lineStatus line

/-- One round of `decode_http`: the first headers, and what stands after them. -/
def decodeBlock (bytes : Bytes) : Except String HttpResponse :=
  match splitHeaders bytes with
  | none => .error "no HTTP headers in the gh output could be parsed"
  | some (before, body) =>
    match fromUtf8 before with
    | none => .error "invalid HTTP header encoding"
    | some headers =>
      match headerStatus headers with
      | .error e => .error e
      | .ok status => .ok { status, headers, body }

theorem splitHeaders_lt {bytes before body : Bytes}
    (h : splitHeaders bytes = some (before, body)) : body.length < bytes.length := by
  have hcut : ∃ p : Bytes, p ≠ [] ∧ splitOnce p bytes = some (before, body) := by
    unfold splitHeaders at h
    split at h
    · rename_i cut hcut
      exact ⟨crlfGap, by decide, hcut.trans h⟩
    · exact ⟨lfGap, by decide, h⟩
  obtain ⟨p, hp, hcut⟩ := hcut
  have hpos := List.length_pos_of_ne_nil hp
  rw [((splitOnce_eq_some_iff hp).mp hcut).1]
  simp only [List.length_append]
  omega

theorem decodeBlock_lt {bytes : Bytes} {r : HttpResponse} (h : decodeBlock bytes = .ok r) :
    r.body.length < bytes.length := by
  unfold decodeBlock at h
  split at h
  · cases h
  · rename_i hcut
    split at h
    · cases h
    · split at h
      · cases h
      · cases h
        exact splitHeaders_lt hcut

/-- `decode_http`. Proxy and interim headers get skipped here instead of being parsed as the
response body. -/
def decodeHttp (bytes : Bytes) : Except String HttpResponse :=
  match _h : decodeBlock bytes with
  | .error e => .error e
  | .ok r => if r.status < 200 then decodeHttp r.body else .ok r
termination_by bytes.length
decreasing_by exact decodeBlock_lt ‹_›

theorem decodeHttp_final {bytes : Bytes} {r : HttpResponse} (h : decodeBlock bytes = .ok r)
    (hstatus : 200 ≤ r.status) : decodeHttp bytes = .ok r := by
  rw [decodeHttp]
  split
  · rename_i he
    rw [h] at he
    cases he
  · rename_i r' hr
    obtain rfl := Except.ok.inj (h.symm.trans hr)
    rw [if_neg (by omega)]

theorem decodeHttp_interim {bytes : Bytes} {r : HttpResponse} (h : decodeBlock bytes = .ok r)
    (hstatus : r.status < 200) : decodeHttp bytes = decodeHttp r.body := by
  rw [decodeHttp]
  split
  · rename_i he
    rw [h] at he
    cases he
  · rename_i r' hr
    obtain rfl := Except.ok.inj (h.symm.trans hr)
    rw [if_pos hstatus]

/-- A response has what the first round found, or what another one finds after it. -/
theorem decodeHttp_ok {bytes : Bytes} {r : HttpResponse} (h : decodeHttp bytes = .ok r) :
    ∃ block, decodeBlock bytes = .ok block ∧
      (200 ≤ block.status ∧ block = r ∨ block.status < 200 ∧ decodeHttp block.body = .ok r) := by
  rw [decodeHttp] at h
  split at h
  · cases h
  · rename_i block hblock
    refine ⟨block, hblock, ?_⟩
    split at h
    · exact .inr ⟨‹_›, h⟩
    · exact .inl ⟨by omega, Except.ok.inj h⟩

/-- The body of a response is shorter than the output it is found in. -/
theorem decodeHttp_lt {bytes : Bytes} {r : HttpResponse} (h : decodeHttp bytes = .ok r) :
    r.body.length < bytes.length := by
  induction hn : bytes.length using Nat.strong_induction_on generalizing bytes with
  | _ n ih =>
    obtain ⟨block, hblock, ⟨-, rfl⟩ | ⟨-, hrest⟩⟩ := decodeHttp_ok h
    · exact hn ▸ decodeBlock_lt hblock
    · have hlt := decodeBlock_lt hblock
      have := ih _ (hn ▸ hlt) hrest rfl
      omega

end Http
end Diffz
