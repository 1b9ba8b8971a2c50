import Diffz.Proof.GitlabSummary

/-!
# Markers are recovered from any text

The marker of a comment is put together from that of the review: its end is trimmed, once, since a
state does not end in it, and comes again after the side. What is read off is what was posted, since a
marker has no line feed after its first two characters.
-/

set_option autoImplicit false

namespace Diffz
namespace Proof
namespace Gitlab

open Diffz.Gitlab

/-- A text of hexadecimal digits. -/
def Hexadecimal (s : String) : Prop := (asBytes s).all isAsciiHexdigit = true

instance : DecidablePred Hexadecimal := fun _ => inferInstanceAs (Decidable (_ = true))

theorem plain_hexadecimal {s : String} (h : Hexadecimal s) : Plain s :=
  ⟨not_mem_of_hexdigits h (b := 58) (by decide) (by decide),
    not_mem_of_hexdigits h (b := 10) (by decide) (by decide)⟩

/-- The end of the marker is taken off once. -/
theorem trimEndMatches_marker (p : PreparedReview) :
    trimEndMatches " -->".toList (marker p).toList = (openMarker p).toList := by
  have hnone : ∀ l : List Char,
      stripSuffix " -->".toList (l ++ p.verdict.remoteState.toList) = none := by
    intro l
    rw [stripSuffix, if_neg]
    intro hsuffix
    obtain ⟨front, hfront⟩ := List.isSuffixOf_iff_suffix.mp hsuffix
    have hlast := congrArg List.getLast? hfront
    cases hv : p.verdict
    all_goals
      rw [hv] at hlast
      simp [Verdict.remoteState] at hlast
  rw [marker, String.toList_append]
  refine trimEndMatches_append (by decide) ?_
  rw [openMarker, String.toList_append]
  exact hnone _

/-- What `send` puts together is the text of the discussion. -/
theorem commentBody_eq (p : PreparedReview) (c : PreparedComment) :
    commentBody p c = postedBody p c := by
  rw [commentBody, trimEndMatches_marker, String.ofList_toList, postedBody]

/-- The fields that are read off a note. -/
def Reads (n : Json) (body fingerprint head state : String) (side : Json) : Prop :=
  ∃ m, markedNote n = some m ∧ m.get "body" = .str body ∧ m.get "fingerprint" = .str fingerprint ∧
    m.get "commit_id" = .str head ∧ m.get "state" = .str state ∧ m.get "side" = side

/-- **Markers are recovered from any text**: what a note of this text is read as is exactly what was
posted. -/
theorem markedNote_recovered (p : PreparedReview) (hfp : Hexadecimal p.fingerprint)
    (hhead : Hexadecimal p.target.head) (n : Json) :
    (∀ c : PreparedComment, n.get "body" = .str (commentBody p c) →
        Reads n c.body p.fingerprint p.target.head p.verdict.remoteState (.str c.side.api)) ∧
      (n.get "body" = .str (p.summary ++ marker p) →
        Reads n p.summary p.fingerprint p.target.head p.verdict.remoteState .null) := by
  constructor
  · intro c hbody
    rw [commentBody_eq] at hbody
    refine ⟨_, markedNote_posted hbody (plain_hexadecimal hfp) (plain_hexadecimal hhead), ?_⟩
    simp [markedOf, Json.get]
  · intro hbody
    refine ⟨_, markedNote_summary hbody (plain_hexadecimal hfp) (plain_hexadecimal hhead), ?_⟩
    simp [markedSummary, Json.get]

def markedReview : PreparedReview := { movedReview with fingerprint := "00ff" }

/-- A comment that ends in a marker of its own. -/
def nestedComment : PreparedComment where
  draft := ⟨"d"⟩
  version := 1
  path := "a"
  position := none
  body := "x\n\n<!-- diffz:00ff:ab:COMMENTED:LEFT -->"
  side := .right
  startLine := 1
  line := 1
  fileLevel := false

theorem nestedComment_recovered :
    Reads (.obj [("body", .str (commentBody markedReview nestedComment))]) nestedComment.body "00ff"
        markedReview.target.head markedReview.verdict.remoteState (.str "RIGHT") ∧
      Reads (.obj [("body", .str (markedReview.summary ++ marker markedReview))])
        markedReview.summary "00ff" markedReview.target.head markedReview.verdict.remoteState .null :=
  have hfp : Hexadecimal markedReview.fingerprint := by decide
  have hhead : Hexadecimal markedReview.target.head := by decide +kernel
  ⟨(markedNote_recovered markedReview hfp hhead _).1 nestedComment rfl,
    (markedNote_recovered markedReview hfp hhead _).2 rfl⟩

end Gitlab
end Proof
end Diffz
