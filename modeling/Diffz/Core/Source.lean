import Diffz.Core.Snapshot
import Diffz.Lib.Spans

/-!
# Source documents and copying (`crates/core/src/domain.rs`, `layout.rs`)

A source document is a text with the places of its lines. A selection of a snapshot is copied from
the rows of the patch, which hold the lines one by one with their endings.

The line loop reads bytes, and slices are taken of texts; `none` is where `str::get` has none.
-/

set_option autoImplicit false

namespace Diffz

structure SourceLine where
  content : Span
  ending : LineEnding
deriving DecidableEq, Repr

inductive SourceError
  | invalidUtf8
  | tooLarge
  | tooManyLines
  | invalidCoordinate
deriving DecidableEq, Repr

def SourceError.message : SourceError → String
  | .invalidUtf8 => "source bytes are not UTF-8; binary/raw content remains undecoded"
  | .tooLarge => "source is over 32 MiB; every byte remains accounted for"
  | .tooManyLines => "logical line count exceeds 1,000,000"
  | .invalidCoordinate => "coordinate lies outside the source or splits a UTF-8 code point"

structure SourceDocument where
  raw : String
  lines : List SourceLine
deriving DecidableEq, Repr

namespace SourceDocument

/-- The loop of `from_utf8`, from the byte `i` on: the lines, and where the rest begins. -/
def lineLoop (raw : Bytes) : Nat → Nat → List SourceLine → Bytes →
    Except SourceError (List SourceLine × Nat)
  | start, _, lines, [] => .ok (lines, start)
  | start, i, lines, b :: rest =>
    if b = 10 then
      let cr := decide (i > start) && decide (raw[i - 1]? = some 13)
      let line : SourceLine :=
        { content := { start, stop := if cr then i - 1 else i }, ending := if cr then .crLf else .lf }
      if lines.length + 1 > 1000000 then .error .tooManyLines
      else lineLoop raw (i + 1) (i + 1) (lines ++ [line]) rest
    else lineLoop raw start (i + 1) lines rest

/-- What follows the last line feed is a line of its own, unless it is empty. -/
def finish (raw : Bytes) (out : List SourceLine × Nat) : List SourceLine :=
  if out.2 < raw.length then
    out.1 ++ [{ content := { start := out.2, stop := raw.length }, ending := .none }]
  else out.1

def ofUtf8 (bytes : Bytes) : Except SourceError SourceDocument :=
  if bytes.length > 32 * 1024 * 1024 then .error .tooLarge
  else
    match fromUtf8 bytes with
    | none => .error .invalidUtf8
    | some raw =>
      match lineLoop (asBytes raw) 0 0 [] (asBytes raw) with
      | .error e => .error e
      | .ok out =>
        let lines := finish (asBytes raw) out
        if lines.length > 1000000 then .error .tooManyLines else .ok { raw, lines }

def rawBytes (d : SourceDocument) : Bytes := asBytes d.raw

/-- The text of a line, counted from 1. -/
def lineText (d : SourceDocument) (line : Nat) : Option String :=
  if line = 0 then none
  else (d.lines[line - 1]?).bind fun l => (slice d.raw.toList l.content).map String.ofList

def offset (d : SourceDocument) (line column : Nat) : Except SourceError Nat :=
  if line = 0 then .error .invalidCoordinate
  else
    match d.lines[line - 1]? with
    | none => .error .invalidCoordinate
    | some l =>
      if column > l.content.len ∨
          isCharBoundary d.raw.toList (l.content.start + column) = false then
        .error .invalidCoordinate
      else .ok (l.content.start + column)

end SourceDocument

inductive MappingError
  | outOfBounds
  | invalidBoundary
  | incomplete
deriving DecidableEq, Repr

def copySourceRange (raw : Bytes) (range : Span) : Except MappingError String :=
  match fromUtf8 raw with
  | none => .error .invalidBoundary
  | some full =>
    if range.start > range.stop ∨ range.stop > raw.length then .error .outOfBounds
    else
      match slice full.toList range with
      | none => .error .invalidBoundary
      | some s => .ok (String.ofList s)

/-! ## Selections -/

structure SourcePoint where
  snapshot : SnapshotId
  file : FileId
  side : Side
  line : Nat
  byteColumn : Nat
deriving DecidableEq, Repr

structure SourceSelection where
  start : SourcePoint
  stop : SourcePoint
deriving DecidableEq, Repr

namespace Snapshot

def validatePoint (s : Snapshot) (p : SourcePoint) : Except String PatchRow :=
  if s.id ≠ p.snapshot then .error "source point comes from a different snapshot"
  else
    match (s.file p.file).bind fun f => f.line p.side p.line with
    | none => .error "source line is not loaded"
    | some r =>
      if isCharBoundary r.text.toList p.byteColumn = false then
        .error "invalid UTF-8 source column"
      else .ok r

/-- `(line, byte_column)` of one point is at most that of another. -/
def atOrBefore (p q : SourcePoint) : Bool :=
  decide (p.line < q.line) || (decide (p.line = q.line) && decide (p.byteColumn ≤ q.byteColumn))

/-- The loop of `copy_selection` over the `count` lines from `n` on. -/
def copyLines (file : FileChange) (a b : SourcePoint) : Nat → Nat → Except String (List Char)
  | 0, _ => .ok []
  | count + 1, n =>
    match file.line a.side n with
    | none => .error "selection includes unloaded context; choose a smaller range"
    | some row =>
      let lo := if n = a.line then a.byteColumn else 0
      let hi := if n = b.line then b.byteColumn else byteLen row.text.toList
      match slice row.text.toList { start := lo, stop := hi } with
      | none => .error "invalid source selection"
      | some piece =>
        let ending := if n ≠ b.line then (fromUtf8 row.ending.bytes).getD "" else ""
        (copyLines file a b count (n + 1)).map (piece ++ ending.toList ++ ·)

def copySelection (s : Snapshot) (sel : SourceSelection) : Except String String := do
  if sel.start.snapshot ≠ sel.stop.snapshot ∨ sel.start.file ≠ sel.stop.file ∨
      sel.start.side ≠ sel.stop.side then
    throw "selection spans multiple files, snapshots, or sides"
  let _ ← s.validatePoint sel.start
  let _ ← s.validatePoint sel.stop
  let ab := if atOrBefore sel.start sel.stop then (sel.start, sel.stop) else (sel.stop, sel.start)
  match s.file ab.1.file with
  | none => throw "missing file"
  | some file =>
    (copyLines file ab.1 ab.2 (ab.2.line + 1 - ab.1.line) ab.1.line).map String.ofList

end Snapshot
end Diffz
