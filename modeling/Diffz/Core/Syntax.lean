import Diffz.Lib.Spans
import Diffz.Lib.Text

/-!
# Highlighting (`crates/core/src/syntax.rs`)

The spans of a file, from what tree-sitter's highlighter says of it. A result is `none` where the
code panics: at an index out of bounds, or at a subtraction below 0.
-/

set_option autoImplicit false

namespace Diffz.Syntax

inductive Token where
  | keyword
  | function
  | type
  | string
  | number
  | comment
  | property
  | constant
  | operator
  | punctuation
  | variable
  | parameter
  | attribute
  | namespace
  | label
  | embedded
deriving DecidableEq, Repr

structure Span where
  bytes : Diffz.Span
  token : Token
deriving DecidableEq, Repr

/-- `RECOGNIZED`. -/
def recognized : List (String × Token) :=
  [("keyword", .keyword),
   ("function", .function),
   ("function.method", .function),
   ("function.macro", .function),
   ("method", .function),
   ("constructor", .function),
   ("type", .type),
   ("type.builtin", .type),
   ("string", .string),
   ("string.special", .string),
   ("character", .string),
   ("escape", .string),
   ("number", .number),
   ("float", .number),
   ("comment", .comment),
   ("property", .property),
   ("field", .property),
   ("constant", .constant),
   ("constant.builtin", .constant),
   ("boolean", .constant),
   ("operator", .operator),
   ("punctuation", .punctuation),
   ("punctuation.bracket", .punctuation),
   ("punctuation.delimiter", .punctuation),
   ("punctuation.special", .punctuation),
   ("variable", .variable),
   ("variable.builtin", .variable),
   ("variable.parameter", .parameter),
   ("parameter", .parameter),
   ("attribute", .attribute),
   ("tag", .attribute),
   ("tag.delimiter", .attribute),
   ("namespace", .namespace),
   ("module", .namespace),
   ("label", .label),
   ("embedded", .embedded)]

def tokenFor (index : Nat) : Option Token := recognized[index]?.map (·.2)

/-- What tree-sitter's highlighter says, step by step. -/
inductive HighlightEvent where
  | highlightStart (highlight : Nat)
  | highlightEnd
  | source (start stop : Nat)
deriving DecidableEq, Repr

/-- Where the line feeds of a text are that begins at `p`. -/
def newlinesFrom (p : Nat) (bytes : Bytes) : List Nat :=
  ((bytes.zipIdx p).filter fun bi => bi.1 == 10).map (·.2)

/-- Where the line ends that the line feed at `nl` ends. -/
def lineEndOf (bytes : Bytes) (lineStart nl : Nat) : Option Nat :=
  if lineStart < nl then bytes[nl - 1]?.map fun b => if b = 13 then nl - 1 else nl
  else some nl

/-- The loop over `newlines`, from the line on that begins at `lineStart`. -/
def boundsFrom (bytes : Bytes) (lineStart : Nat) : List Nat → Option (List (Nat × Nat))
  | [] => some [(lineStart, bytes.length)]
  | nl :: newlines =>
    (lineEndOf bytes lineStart nl).bind fun lineEnd =>
      (boundsFrom bytes (nl + 1) newlines).map fun rest => (lineStart, lineEnd) :: rest

/-- `push` on one of the lines. -/
def pushAt (lines : List (List Span)) (line : Nat) (span : Span) : Option (List (List Span)) :=
  if line < lines.length then some (lines.modify line (· ++ [span])) else none

/-- The part of a range in one line. -/
def pushClipped (lines : List (List Span)) (line lineStart cursor clipped : Nat) (token : Token) :
    Option (List (List Span)) :=
  if cursor < clipped then
    if lineStart ≤ cursor then
      pushAt lines line ⟨⟨cursor - lineStart, clipped - lineStart⟩, token⟩
    else none
  else some lines

/-- The loop of `push_span`. -/
def pushLoop (bounds : List (Nat × Nat)) (stop : Nat) (token : Token) (cursor line : Nat)
    (lines : List (List Span)) : Option (List (List Span)) :=
  if cursor < stop then
    if h : line < bounds.length then
      (pushClipped lines line bounds[line].1 cursor (min stop bounds[line].2) token).bind fun lines =>
        if min stop bounds[line].2 = stop then some lines
        else bounds[line + 1]?.bind fun next =>
          pushLoop bounds stop token next.1 (line + 1) lines
    else none
  else some lines
termination_by bounds.length - line

/-- `partition_point`, of a slice that is in order. -/
def partitionPoint {α : Type} (p : α → Bool) (l : List α) : Nat := (l.takeWhile p).length

def pushSpan (lines : List (List Span)) (bounds : List (Nat × Nat)) (start stop : Nat)
    (token : Token) : Option (List (List Span)) :=
  match partitionPoint (fun b => decide (b.1 ≤ start)) bounds with
  | 0 => none
  | line + 1 => pushLoop bounds stop token start line lines

variable {ε : Type}

/-- The loop over `events`; no lines at an event that is an error, or of a highlight that is not
recognized. The last token of `stack` is its first. -/
def eventLoop (bounds : List (Nat × Nat)) :
    List (Except ε HighlightEvent) → List Token → List (List Span) →
    Option (Option (List (List Span)))
  | [], _, lines => some (some lines)
  | .error _ :: _, _, _ => some none
  | .ok (.highlightStart highlight) :: events, stack, lines =>
    match tokenFor highlight with
    | none => some none
    | some token => eventLoop bounds events (token :: stack) lines
  | .ok .highlightEnd :: events, stack, lines => eventLoop bounds events stack.tail lines
  | .ok (.source start stop) :: events, stack, lines =>
    match stack.head? with
    | none => eventLoop bounds events stack lines
    | some token => do
      let lines ← pushSpan lines bounds start stop token
      eventLoop bounds events stack lines

/-- `spans`, of what `highlight` returns. -/
def spans (highlighted : Except ε (List (Except ε HighlightEvent))) (source : String) :
    Option (Option (List (List Span))) :=
  match highlighted with
  | .error _ => some none
  | .ok events => do
    let bytes := asBytes source
    let bounds ← boundsFrom bytes 0 (newlinesFrom 0 bytes)
    eventLoop bounds events [] (List.replicate bounds.length [])

end Diffz.Syntax
