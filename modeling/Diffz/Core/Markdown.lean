import Diffz.Lib.Text

/-!
# Markdown that is shown (`crates/core/src/review_details.rs`)

A body is shown without its comments, which are hidden, and without its images; but its code is
shown as it is. Where the code is comes from a Markdown parser and is an argument here. The ranges
are on character boundaries, so positions count characters.
-/

set_option autoImplicit false

namespace Diffz
namespace Markdown

/-- The variables of the loop in `visible_markdown`. -/
structure Scan where
  pos : Nat
  lineEnd : Nat
  /-- the code from `next_code` on -/
  code : List (Nat × Nat)
  hidden : Bool
  gap : Bool
  visible : List Char
  kept : List (Nat × Nat)

def Scan.start (code : List (Nat × Nat)) : Scan where
  pos := 0
  lineEnd := 0
  code := code
  hidden := false
  gap := false
  visible := []
  kept := []

def between (l : List Char) (start stop : Nat) : List Char := (l.take stop).drop start

/-- `find`. -/
def find (p l : List Char) : Option Nat := (splitOnce p l).map (·.1.length)

/-- `separate_code_delimiters`. -/
def separate (out next : List Char) (gap : Bool) : List Char :=
  if gap = true ∧ out.getLast? = some '`' ∧ next.head? = some '`' then out ++ "<!---->".toList
  else out

/-- The text begins with an image tag. -/
def opensImage (rest : List Char) : Bool := (rest.take 4).map Char.toLower = "<img".toList

def lineEndAt (body : List Char) (pos : Nat) : Nat :=
  ((find ['\n'] (body.drop pos)).map (pos + · + 1)).getD body.length

/-- A turn of the loop in the text, up to the end of the line. -/
def textTurn (body : List Char) (s : Scan) (lineEnd : Nat) : Scan :=
  let rest := between body s.pos lineEnd
  if s.hidden then
    match find "-->".toList rest with
    | some i => { s with lineEnd, pos := s.pos + i + 3, hidden := false }
    | none => { s with lineEnd, pos := lineEnd }
  else if "<!--".toList.isPrefixOf rest then
    { s with lineEnd, hidden := true, gap := true, pos := s.pos + 4 }
  else if opensImage rest then
    match find ['>'] rest with
    | some i =>
      { s with lineEnd, visible := s.visible ++ "[image]".toList, gap := false, pos := s.pos + i + 1 }
    | none => { s with lineEnd, pos := lineEnd }
  else
    { s with
      lineEnd, visible := separate s.visible rest s.gap ++ rest.take 1, gap := false, pos := s.pos + 1 }

/-- A turn of the loop. -/
def turn (body : List Char) (s : Scan) : Scan :=
  let s := { s with code := s.code.dropWhile fun r => r.2 ≤ s.pos }
  match s.code.head?.filter fun r => !s.hidden && r.1 = s.pos with
  | some r =>
    let text := between body r.1 r.2
    let out := separate s.visible text s.gap
    { s with
      visible := out ++ text, kept := s.kept ++ [(out.length, out.length + text.length)]
      gap := false, pos := r.2 }
  | none => textTurn body s (if s.lineEnd ≤ s.pos then lineEndAt body s.pos else s.lineEnd)

/-- `while at < body.len()`; every turn goes on by a character at least. -/
def loop (body : List Char) : Nat → Scan → Scan
  | 0, s => s
  | fuel + 1, s => if s.pos < body.length then loop body fuel (turn body s) else s

/-- What stands for the opener of an image. -/
def imageText : List Char := "[image: ".toList

/-- `replace("![", "[image: ")`. -/
def replaceOpeners : List Char → List Char
  | '!' :: '[' :: rest => imageText ++ replaceOpeners rest
  | c :: rest => c :: replaceOpeners rest
  | [] => []

/-- The loop over `kept_code`: what is written, and up to where. -/
def writeKept (visible : List Char) (kept : List (Nat × Nat)) : List Char × Nat :=
  kept.foldl (fun out r => (out.1 ++ replaceOpeners (between visible out.2 r.1) ++
    between visible r.1 r.2, r.2)) ([], 0)

def visibleChars (body : List Char) (code : List (Nat × Nat)) : List Char :=
  let s := loop body body.length (.start code)
  let out := writeKept s.visible s.kept
  out.1 ++ replaceOpeners (s.visible.drop out.2)

end Markdown

/-- `visible_markdown`, of the ranges that `markdown_code_ranges` returns. -/
def visibleMarkdown (body : String) (code : Option (List (Nat × Nat))) : String :=
  match code with
  | none => "Markdown preview unavailable"
  | some code => String.ofList (Markdown.visibleChars body.toList code)

end Diffz
