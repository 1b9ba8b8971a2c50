import Diffz.Lib.Text

/-!
# Source identity (`crates/core/src/domain.rs`)

The identities, the digest every identity is made of, the two sides and the line endings, and the
repository path with Git's quoting. SHA-256 is the `sha2` crate's and enters as the parameter
`sha256`; everything around it, the length framing and the hexadecimal text, is the source's and
is here.
-/

set_option autoImplicit false

namespace Diffz

structure SnapshotId where
  val : String
deriving DecidableEq, Repr

structure FileId where
  val : String
deriving DecidableEq, Repr

structure DraftId where
  val : String
deriving DecidableEq, Repr

structure OperationId where
  val : String
deriving DecidableEq, Repr

/-! ## Digests -/

/-- `u64::to_le_bytes`. -/
def toLeBytes (n : Nat) : Bytes := (List.range 8).map fun k => UInt8.ofNat (n / 256 ^ k)

/-- The byte stream `digest` feeds to the hasher: each part after its length. -/
def framed (parts : List Bytes) : Bytes := parts.flatMap fun p => toLeBytes p.length ++ p

def hexDigit (n : Nat) : Char := Nat.digitChar n

def hex (b : Bytes) : String :=
  String.ofList (b.flatMap fun x => [hexDigit (x.toNat / 16), hexDigit (x.toNat % 16)])

def digest (sha256 : Bytes → Bytes) (parts : List Bytes) : String := hex (sha256 (framed parts))

/-! ## Sides and endings -/

inductive Side
  | left
  | right
deriving DecidableEq, Repr

def Side.api : Side → String
  | .left => "LEFT"
  | .right => "RIGHT"

inductive LineEnding
  | lf
  | crLf
  | none
deriving DecidableEq, Repr

def LineEnding.bytes : LineEnding → Bytes
  | .lf => [10]
  | .crLf => [13, 10]
  | .none => []

/-! ## Repository paths -/

/-- What `RepoPath::new` refuses: an empty path, a NUL, an absolute path, or an empty, `.` or `..`
segment. -/
def validPath (b : Bytes) : Bool :=
  !(b.isEmpty || b.contains 0 || (asBytes "/").isPrefixOf b ||
    (b.splitOn 47).any fun p => p.isEmpty || p = asBytes "." || p = asBytes "..")

/-- A Git path, kept as raw bytes because Git permits paths that are not UTF-8. -/
structure RepoPath where
  bytes : Bytes
  valid : validPath bytes = true
deriving DecidableEq

namespace RepoPath

def new (b : Bytes) : Except String RepoPath :=
  if h : validPath b = true then .ok ⟨b, h⟩ else .error "invalid relative repository path"

def utf8 (p : RepoPath) : Except String String :=
  match fromUtf8 p.bytes with
  | some s => .ok s
  | none => .error "GitHub requires a UTF-8 path"

def isOctal (b : UInt8) : Bool := 48 ≤ b && b ≤ 55

/-- The byte after a backslash, octal digits apart. -/
def escape : UInt8 → Except String UInt8
  | 97 => .ok 7
  | 98 => .ok 8
  | 116 => .ok 9
  | 110 => .ok 10
  | 118 => .ok 11
  | 102 => .ok 12
  | 114 => .ok 13
  | 92 => .ok 92
  | 34 => .ok 34
  | _ => .error "invalid Git path escape"

/-- Up to `more` further octal digits of an escape that stands at `n`. -/
def octal : Nat → Nat → Bytes → Nat × Bytes
  | _, n, [] => (n, [])
  | 0, n, rest => (n, rest)
  | more + 1, n, d :: rest =>
    if isOctal d then octal more (n * 8 + (d.toNat - 48)) rest else (n, d :: rest)

theorem octal_length_le (more n : Nat) (rest : Bytes) :
    (octal more n rest).2.length ≤ rest.length := by
  induction rest generalizing more n with
  | nil => cases more <;> simp [octal]
  | cons d rest ih =>
    cases more with
    | zero => simp [octal]
    | succ more =>
      rw [octal]
      split
      · exact Nat.le_succ_of_le (ih more _)
      · exact Nat.le_refl _

/-- The loop of `from_git_token` over what stands between the quotes. -/
def unquote (v : Bytes) : Except String Bytes :=
  match v with
  | [] => .ok []
  | b :: rest =>
    if b = 34 then .error "unescaped quote in path"
    else if b ≠ 92 then (unquote rest).map (b :: ·)
    else match rest with
      | [] => .error "trailing path escape"
      | c :: rest =>
        if isOctal c then
          let r := octal 2 (c.toNat - 48) rest
          if r.1 > 255 then .error "octal path escape is larger than one byte"
          else (unquote r.2).map (UInt8.ofNat r.1 :: ·)
        else match escape c with
          | .error e => .error e
          | .ok x => (unquote rest).map (x :: ·)
termination_by v.length
decreasing_by
  · simp
  · have := octal_length_le 2 (c.toNat - 48) rest
    simp only [List.length_cons]; omega
  · simp only [List.length_cons]; omega

/-- Quoted paths use Git's C syntax. Spaces stay literal in unquoted paths. -/
def fromGitToken (v : Bytes) : Except String RepoPath :=
  if v.head? ≠ some 34 then new v
  else if v.length < 2 ∨ v.getLast? ≠ some 34 then .error "unterminated quoted path"
  else match unquote (v.tail.dropLast) with
    | .error e => .error e
    | .ok out => new out

def withoutSide (p : RepoPath) : Except String RepoPath :=
  if (asBytes "a/").isPrefixOf p.bytes ∨ (asBytes "b/").isPrefixOf p.bytes then
    new (p.bytes.drop 2)
  else .ok p

/-- `char::is_control`. -/
def isControl (c : Char) : Bool := c.toNat < 32 || (127 ≤ c.toNat && c.toNat < 160)

/-- `char::escape_default`. -/
def escapeDefault (c : Char) : List Char :=
  if c = '\t' then ['\\', 't']
  else if c = '\r' then ['\\', 'r']
  else if c = '\n' then ['\\', 'n']
  else if c = '\'' ∨ c = '"' ∨ c = '\\' then ['\\', c]
  else if 32 ≤ c.toNat ∧ c.toNat ≤ 126 then [c]
  else "\\u\x7b".toList ++ Nat.toDigits 16 c.toNat ++ "\x7d".toList

/-- `u8::is_ascii_graphic`. -/
def isAsciiGraphic (b : UInt8) : Bool := 33 ≤ b && b ≤ 126

def display (p : RepoPath) : String :=
  match fromUtf8 p.bytes with
  | some s => String.ofList (s.toList.flatMap fun c => if isControl c then escapeDefault c else [c])
  | none => String.ofList (p.bytes.flatMap fun b =>
      if isAsciiGraphic b || b = 32 then [Char.ofNat b.toNat]
      else ['\\', 'x', hexDigit (b.toNat / 16), hexDigit (b.toNat % 16)])

end RepoPath

/-! ## Review targets -/

structure RepositoryKey where
  host : String
  id : Nat
  owner : String
  name : String
deriving DecidableEq, Repr

structure ProviderId where
  val : String
deriving DecidableEq, Repr

namespace ProviderId

def github : ProviderId := ⟨"GitHub"⟩
def gitlab : ProviderId := ⟨"GitLab"⟩
def entire : ProviderId := ⟨"Entire"⟩

end ProviderId

/-- The two refs of a compare as written in its URL. -/
structure CompareRefs where
  base : String
  head : String
  direct : Bool
deriving DecidableEq, Repr

structure EntireTarget where
  forge : String
  repositoryId : String
  placementId : String
  changeId : String
  apiOrigin : String
  address : String
  projectTrailId : Option String
deriving DecidableEq, Repr

structure RemoteTarget where
  provider : ProviderId
  repository : RepositoryKey
  account : String
  pr : Nat
  targetTip : String
  comparisonBase : String
  head : String
  isOpen : Bool
  draft : Bool
  merged : Bool
  pendingReview : Bool
  compare : Option CompareRefs
  entire : Option EntireTarget
deriving DecidableEq, Repr

end Diffz
