import Diffz.Adapters.Address
import Diffz.Lib.Excerpt
import Diffz.Lib.Lossy

/-!
# Excerpts of standard error (`stderr_excerpt` in `crates/adapters/src/process.rs`)

What a tool wrote to its standard error goes into the message of an error: in one line, without what
could disguise it, and without the words that look like credentials.
-/

set_option autoImplicit false

namespace Diffz.Process

/-- `LIMIT`. -/
def limit : Nat := 300

/-- The bytes that are read of the output. -/
def window : Nat := 4096

/-- `SECRET_PREFIXES`. -/
def secretPrefixes : List String :=
  ["ghp_", "gho_", "ghu_", "ghs_", "ghr_", "github_pat_", "glpat-", "gloas-"]

/-- Bidirectional and zero-width format characters could disguise the displayed text. -/
def hidden (c : Char) : Bool :=
  (0x200B ≤ c.toNat && c.toNat ≤ 0x200F) || (0x202A ≤ c.toNat && c.toNat ≤ 0x202E) ||
    (0x2066 ≤ c.toNat && c.toNat ≤ 0x2069) || c.toNat == 0xFEFF

/-- A character that `split` takes as a separator. -/
def separates (c : Char) : Bool := isWhitespace c || RepoPath.isControl c || hidden c

/-- The words of `split` that are not empty. -/
def words (text : List Char) : List (List Char) := wordsBy separates text

/-- `to_ascii_lowercase`. -/
def lower (word : List Char) : List Char := word.map Char.toLower

/-- `secret`: whether a word is redacted, with `next` for `redact_next`. -/
def isSecret (next : Bool) (word : List Char) : Bool :=
  (next && decide (16 ≤ byteLen word)) ||
    secretPrefixes.any (hasText (lower word)) ||
    hasText (lower word) "token=" ||
    hasText (lower word) "private-token:" ||
    (hasText (lower word) "://" && word.contains '@')

/-- Whether the next word is a credential if it is long: `redact_next` after this word. -/
def redactsNext (word : List Char) : Bool :=
  ["bearer", "basic", "token", "authorization", "private-token"].any fun name =>
    decide ((lower word).rdropWhile (· = ':') = name.toList)

def redacted : List Char := "[redacted]".toList

/-- The loop over the words. -/
def redact : Bool → List (List Char) → List (List Char)
  | _, [] => []
  | next, word :: rest =>
    (if isSecret next word then redacted else word) :: redact (redactsNext word) rest

/-- The words that are read. -/
def readWords (stderr : Bytes) : List (List Char) := words (fromUtf8Lossy (stderr.take window))

/-- A short, single-line stderr excerpt for error messages. Control characters are dropped and words
that look like credentials are redacted, since CLI tools may echo headers or URLs. -/
def stderrExcerpt (stderr : Bytes) : Option (List Char) :=
  let line := joinWords (redact false (readWords stderr))
  if line.isEmpty then none
  else some (shorten limit line)

end Diffz.Process
