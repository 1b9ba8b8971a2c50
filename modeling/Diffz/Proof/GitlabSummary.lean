import Diffz.Proof.Gitlab

/-!
# A GitLab review is counted right unless its summary looks like an old comment

GitLab lists the summary of a review among the plain notes, where `comments` still looks for
comments on whole files as they were written before discussions could be on a file: a bold path, a
blank line and the text. It knows them by that shape alone, so a summary of the shape is counted as
one more comment of its own review, which is then never recognised.
-/

set_option autoImplicit false

namespace Diffz
namespace Proof

open Diffz.Gitlab

variable {hashes : Hashes} {p : PreparedReview} {n summary : Json} {a : Answers}
  {ns found : List Json}

/-! ## The note with the summary -/

/-- The text of the note a review ends with. -/
def summaryBody (p : PreparedReview) : String := p.summary ++ marker p

/-- What is read off that note. -/
def markedSummary (p : PreparedReview) (n : Json) : Json :=
  .obj [("id", n.get "id"), ("body", .str p.summary), ("commit_id", .str p.target.head),
    ("state", .str p.verdict.remoteState), ("fingerprint", .str p.fingerprint), ("side", .null),
    ("user", .obj [("login", (n.get "author").get "username")])]

theorem markedSummary_get (p : PreparedReview) (n : Json) :
    (markedSummary p n).get "body" = .str p.summary ∧
      (markedSummary p n).get "state" = .str p.verdict.remoteState ∧
      (markedSummary p n).get "fingerprint" = .str p.fingerprint := by
  simp [markedSummary, Json.get]

/-- The fields of the marker of a summary. -/
def summaryMarkerText (p : PreparedReview) : List Char :=
  p.fingerprint.toList ++ ':' :: (p.target.head.toList ++ ':' :: p.verdict.remoteState.toList)

theorem summaryBody_toList (p : PreparedReview) :
    (summaryBody p).toList = p.summary.toList ++ ("\n\n<!-- diffz:".toList ++
      (summaryMarkerText p ++ " -->".toList)) := by
  show (p.summary ++ (("\n\n<!-- diffz:" ++ p.fingerprint ++ ":" ++ p.target.head ++ ":" ++
    p.verdict.remoteState) ++ " -->")).toList = _
  simp [summaryMarkerText]

theorem markedNote_summary (hbody : n.get "body" = .str (summaryBody p))
    (hfp : Plain p.fingerprint) (hhead : Plain p.target.head) :
    markedNote n = some (markedSummary p n) := by
  have hstate := plain_remoteState p.verdict
  have hline : '\n' ∉ summaryMarkerText p ++ " -->".toList := by
    simp only [summaryMarkerText, List.mem_append, List.mem_cons, not_or]
    exact ⟨⟨hfp.2, by decide, hhead.2, by decide, hstate.2⟩, by decide⟩
  have hsplit : (summaryMarkerText p).splitOn ':' = [p.fingerprint.toList, p.target.head.toList,
      p.verdict.remoteState.toList] := by
    rw [summaryMarkerText, List.splitOn_append_cons_self_of_not_mem hfp.1,
      List.splitOn_append_cons_self_of_not_mem hhead.1, List.splitOn_eq_singleton hstate.1]
  unfold markedNote
  rw [hbody]
  simp only [Json.asStr_str, Option.bind_eq_bind, Option.bind_some, summaryBody_toList,
    rsplitOnce_marker hline, stripSuffix_append, hsplit]
  simp [Json.ofStr?, markedSummary]

/-! ## Summaries that look like comments -/

/-- A bold text, a blank line and more text: the shape of an old comment on a whole file. -/
def looksLikeFileNote (s : String) : Bool :=
  match (stripPrefix "**".toList s.toList).bind (splitOnce "**\n\n".toList) with
  | some (path, rest) => path ≠ [] && rest ≠ []
  | none => false

theorem fileLevelNote_summary (hbody : n.get "body" = .str (summaryBody p))
    (hfp : Plain p.fingerprint) (hhead : Plain p.target.head) :
    (fileLevelNote n p.fingerprint).isSome = looksLikeFileNote p.summary := by
  obtain ⟨hmbody, -, hmfp⟩ := markedSummary_get p n
  unfold fileLevelNote looksLikeFileNote
  simp only [markedNote_summary hbody hfp hhead, Option.bind_eq_bind, Option.bind_some, hmbody,
    hmfp, Json.isStr, Json.asStr_str]
  cases stripPrefix "**".toList p.summary.toList with
  | none => simp
  | some rest =>
    simp only [Option.bind_some]
    cases splitOnce "**\n\n".toList rest with
    | none => simp
    | some ab =>
      obtain ⟨path, rest⟩ := ab
      cases path <;> cases rest <;> simp

/-! ## What GitLab stores -/

/-- GitLab has stored what was posted for a review: `ns` are the notes of its discussions, `summary`
is the note with the summary, and the verdict is shown. `discussions` lists the notes of the
discussions, and may list the summary as a discussion of its own; `notes` lists all of them. -/
structure Stored (p : PreparedReview) (a : Answers) (ns : List Json) (summary : Json) : Prop where
  comments : List.Forall₂ (Noted p) p.comments ns
  diffNotes : ∀ n ∈ ns, n.get "type" = .str "DiffNote"
  body : summary.get "body" = .str (summaryBody p)
  plain : summary.get "position" = .null ∧ (summary.get "type").isStr "DiffNote" = false ∧
    (summary.get "system").isTrue = false
  note : a.note = summary
  discussions : (discussionNotes a).Perm ns ∨ (discussionNotes a).Perm (ns ++ [summary])
  notes : a.notes.Perm (ns ++ [summary])
  shown : verdictShown p.target a (.str p.verdict.remoteState) = .ok ()

/-- The entries for the notes of the discussions. -/
def entriesOf (p : PreparedReview) (ns : List Json) : List Json :=
  ns.filterMap fun n => (discussionEntry p.target p.fingerprint n).toOption.join

theorem discussionEntries_eq {t : RemoteTarget} {fingerprint : String} {notes : List Json}
    (h : ∀ n ∈ notes, ∃ entry, discussionEntry t fingerprint n = .ok entry) :
    discussionEntries t fingerprint notes =
      .ok (notes.filterMap fun n => (discussionEntry t fingerprint n).toOption.join) := by
  induction notes with
  | nil => rfl
  | cons n notes ih =>
    obtain ⟨entry, hentry⟩ := h n List.mem_cons_self
    rw [discussionEntries, ih fun m hm => h m (List.mem_cons_of_mem n hm), hentry]
    cases entry with
    | none =>
      rw [List.filterMap_cons_none]
      · rfl
      · rw [hentry]
        rfl
    | some e =>
      rw [List.filterMap_cons_some]
      · rfl
      · rw [hentry]
        rfl

theorem discussionEntry_summary {t : RemoteTarget} {fingerprint : String}
    (h : n.get "position" = .null) : discussionEntry t fingerprint n = .ok none := by
  unfold discussionEntry
  rw [h]
  rfl

/-- The plain notes are the summary alone. -/
theorem plainNotes_eq (h : Stored p a ns summary) :
    (a.notes.filter fun n => ¬ (n.get "system").isTrue ∧ ¬ (n.get "type").isStr "DiffNote") =
      [summary] := by
  have hperm := h.notes.filter fun n => ¬ (n.get "system").isTrue ∧ ¬ (n.get "type").isStr "DiffNote"
  have hns : ns.filter (fun n => ¬ (n.get "system").isTrue ∧ ¬ (n.get "type").isStr "DiffNote") =
      [] := by
    rw [List.filter_eq_nil_iff]
    intro n hn
    simp [h.diffNotes n hn, Json.isStr]
  rw [List.filter_append, hns, List.nil_append, List.filter_cons_of_pos, List.filter_nil] at hperm
  · exact List.perm_singleton.mp hperm
  · simp [h.plain.2.1, h.plain.2.2]

section

variable {id : OperationId} {s : Snapshot} {drafts : List Draft} {verdict : Verdict}
  {text : String}

/-- Every comment has an entry. -/
theorem entry_of_comment
    (hp : PreparedReview.prepare hashes (Gitlab.rules hashes) id s drafts verdict text = .ok p)
    (hrefs : usableRefs p.target) {c : PreparedComment} (hc : c ∈ p.comments) (hn : Noted p c n) :
    ∃ entry, discussionEntry p.target p.fingerprint n = .ok (some entry) := by
  have hok := prepare_ok hp
  obtain ⟨d, f, hacc⟩ := accepted_of_mem hok.comments hc
  obtain ⟨q, hpos, hq⟩ := position_placed hacc.position
  exact ⟨_, discussionEntry_posted hn hpos hacc hq (plain_fingerprint hok) (plain_head hrefs)⟩

/-- The notes of the discussions have one entry each. -/
theorem entriesOf_length {cs : List PreparedComment}
    (hentry : ∀ c ∈ cs, ∀ n, Noted p c n →
      ∃ entry, discussionEntry p.target p.fingerprint n = .ok (some entry))
    (h : List.Forall₂ (Noted p) cs ns) :
    (∀ n ∈ ns, ∃ entry, discussionEntry p.target p.fingerprint n = .ok entry) ∧
      (entriesOf p ns).length = cs.length := by
  induction h with
  | nil => exact ⟨nofun, rfl⟩
  | @cons c n cs ns hn _ ih =>
    obtain ⟨entry, he⟩ := hentry c List.mem_cons_self n hn
    obtain ⟨hall, hlen⟩ := ih fun c hc => hentry c (List.mem_cons_of_mem _ hc)
    refine ⟨List.forall_mem_cons.mpr ⟨⟨_, he⟩, hall⟩, ?_⟩
    rw [entriesOf, List.filterMap_cons_some (b := entry) (by rw [he]; rfl)]
    exact congrArg Nat.succ hlen

/-- What `comments` returns: the entries of the discussions, and one more when the summary looks like
an old comment. -/
theorem comments_stored
    (hp : PreparedReview.prepare hashes (Gitlab.rules hashes) id s drafts verdict text = .ok p)
    (hrefs : usableRefs p.target) (h : Stored p a ns summary) :
    ∃ found, comments p.target a = .ok found ∧
      found.Perm (entriesOf p ns ++ (fileLevelNote summary p.fingerprint).toList) := by
  have hok := prepare_ok hp
  have hfp := plain_fingerprint hok
  have hhead := plain_head hrefs
  obtain ⟨-, hstate, hfingerprint⟩ := markedSummary_get p summary
  obtain ⟨hall, -⟩ := entriesOf_length (fun c hc n hn => entry_of_comment hp hrefs hc hn) h.comments
  -- The summary adds nothing where it is listed as a discussion.
  have hnotes : (∀ n ∈ discussionNotes a, ∃ entry,
      discussionEntry p.target p.fingerprint n = .ok entry) ∧
      (entriesOf p (discussionNotes a)).Perm (entriesOf p ns) := by
    rcases h.discussions with hperm | hperm
    · exact ⟨fun n hn => hall n (hperm.mem_iff.mp hn), hperm.filterMap _⟩
    · constructor
      · intro n hn
        rcases List.mem_append.mp (hperm.mem_iff.mp hn) with hn | hn
        · exact hall n hn
        · rw [List.mem_singleton.mp hn]
          exact ⟨_, discussionEntry_summary h.plain.1⟩
      · have hmap := hperm.filterMap fun n =>
          (discussionEntry p.target p.fingerprint n).toOption.join
        rw [List.filterMap_append, List.filterMap_cons_none, List.filterMap_nil,
          List.append_nil] at hmap
        · exact hmap
        · rw [discussionEntry_summary h.plain.1]
          rfl
  refine ⟨entriesOf p (discussionNotes a) ++ (fileLevelNote summary p.fingerprint).toList, ?_,
    hnotes.2.append_right _⟩
  have hentries : discussionEntries p.target p.fingerprint
      (a.discussions.flatMap fun d => (d.get "notes").asArray.getD []) =
        .ok (entriesOf p (discussionNotes a)) := discussionEntries_eq hnotes.1
  have hold : [summary].filterMap (fun n => fileLevelNote n p.fingerprint) =
      (fileLevelNote summary p.fingerprint).toList := by
    cases hnote : fileLevelNote summary p.fingerprint <;> simp [hnote]
  unfold comments
  simp only [h.note, markedNote_summary h.body hfp hhead, hfingerprint, hstate, Json.asStr_str,
    h.shown, hentries, plainNotes_eq h, hold]
  rfl

/-- **The comments of a GitLab review are counted right exactly when its summary does not look like
an old comment.** For every review that is prepared under GitLab's rules, and the notes GitLab
stores and lists for it: `comments` returns one entry for each comment, in some order, and no other,
if and only if the summary is not a bold text, a blank line and more text. -/
theorem gitlab_comments_exact_iff
    (hp : PreparedReview.prepare hashes (Gitlab.rules hashes) id s drafts verdict text = .ok p)
    (hrefs : usableRefs p.target) (h : Stored p a ns summary) :
    (entriesOf p ns).length = p.comments.length ∧
      ((∃ found, comments p.target a = .ok found ∧ found.length = p.comments.length ∧
        found.Perm (entriesOf p ns)) ↔ looksLikeFileNote text = false) := by
  have hok := prepare_ok hp
  have hlen := (entriesOf_length (fun c hc n hn => entry_of_comment hp hrefs hc hn) h.comments).2
  have hlegacy := fileLevelNote_summary h.body (plain_fingerprint hok) (plain_head hrefs)
  rw [hok.summary] at hlegacy
  obtain ⟨found, hfound, hperm⟩ := comments_stored hp hrefs h
  refine ⟨hlen, ?_, ?_⟩
  · rintro ⟨found', hfound', hcount, -⟩
    cases hfound.symm.trans hfound'
    rw [hperm.length_eq, List.length_append, hlen] at hcount
    cases hnote : fileLevelNote summary p.fingerprint with
    | none =>
      rw [hnote] at hlegacy
      exact hlegacy.symm
    | some entry =>
      rw [hnote] at hcount
      simp at hcount
  · intro hplain
    rw [hplain, Option.isSome_eq_false_iff, Option.isNone_iff_eq_none] at hlegacy
    rw [hlegacy, Option.toList_none, List.append_nil] at hperm
    exact ⟨found, hfound, hperm.length_eq.trans hlen, hperm⟩

end

/-! ### A summary with a heading -/

/-- A review without comments. -/
def summaryReview (summary fingerprint : String) : PreparedReview :=
  { movedReview with
    id := ⟨"op-5"⟩, verdict := .comment, summary, comments := [], fingerprint }

/-- What GitLab lists for it. -/
def summaryAnswers (p : PreparedReview) : Answers :=
  let note := .obj [("id", .num 9), ("body", .str (summaryBody p))]
  ⟨note, .null, .null, [], [note]⟩

theorem summaryAnswers_stored {p : PreparedReview} (hc : p.comments = [])
    (hv : p.verdict = .comment) :
    Stored p (summaryAnswers p) [] (summaryAnswers p).note := by
  refine ⟨hc ▸ .nil, nofun, ?_, ?_, rfl, .inl (.refl _), .refl _, ?_⟩
  · simp [summaryAnswers, Json.get]
  · simp [summaryAnswers, Json.get, Json.isStr, Json.isTrue]
  · simp [verdictShown, hv, Verdict.remoteState, Json.isStr]

def plainReview : PreparedReview := summaryReview "Looks good"
  "f7088b4d30d2d4f546e2b5c975acb019b670caf3b6ea1f137ec6b158933aaa79"

def headedReview : PreparedReview := summaryReview "**Nit**\n\nLooks good"
  "2ef32cad50316259be6bb794299a1286ad41e0a948adf1db17f07e2db741db27"

theorem plainReview_fingerprint : plainReview.computeFingerprint sampleHashes
    (Gitlab.rules sampleHashes) = plainReview.fingerprint := by
  rw [computeFingerprint_written]
  decide +kernel

theorem headedReview_fingerprint : headedReview.computeFingerprint sampleHashes
    (Gitlab.rules sampleHashes) = headedReview.fingerprint := by
  rw [computeFingerprint_written]
  decide +kernel

theorem summary_preparable {summary : String} (hs : isBlank summary = false)
    (hq : quickAction summary = false) (hlen : (asBytes summary).length ≤ 64 * 1024) :
    Preparable (Gitlab.rules sampleHashes) movedSnapshot [] .comment summary movedTarget where
  remote := rfl
  provider := rfl
  writable := rfl
  single := rfl
  checked := by simp [rules, check, hq]
  complete := rfl
  isOpen := rfl
  settled := rfl
  summarized := .inr hs
  small := ⟨hlen, by decide⟩

theorem summaryReviews_prepared :
    (PreparedReview.prepare sampleHashes (Gitlab.rules sampleHashes) ⟨"op-5"⟩ movedSnapshot []
      .comment "Looks good").toOption = some plainReview ∧
    (PreparedReview.prepare sampleHashes (Gitlab.rules sampleHashes) ⟨"op-5"⟩ movedSnapshot []
      .comment "**Nit**\n\nLooks good").toOption = some headedReview := by
  constructor
  · exact congrArg Except.toOption ((summary_preparable (by decide +kernel)
      (by decide +kernel) (by decide +kernel)).prepare_eq (p := plainReview) rfl movedSnapshot_verified rfl rfl
      plainReview_fingerprint)
  · exact congrArg Except.toOption ((summary_preparable (by decide +kernel)
      (by decide +kernel) (by decide +kernel)).prepare_eq (p := headedReview) rfl movedSnapshot_verified rfl rfl
      headedReview_fingerprint)

/-- The plain summary is not counted. -/
theorem plainReview_exact :
    Stored plainReview (summaryAnswers plainReview) [] (summaryAnswers plainReview).note ∧
      ∃ found, comments movedTarget (summaryAnswers plainReview) = .ok found ∧
        found.length = plainReview.comments.length ∧ found.Perm (entriesOf plainReview []) := by
  have hstored := summaryAnswers_stored (p := plainReview) rfl rfl
  have hiff := gitlab_comments_exact_iff (ok_of_toOption summaryReviews_prepared.1)
    movedTarget_refs hstored
  exact ⟨hstored, hiff.2.mpr (by decide)⟩

/-- The one with a bold heading is, although the review has no comment. -/
theorem headedReview_counts_summary :
    (PreparedReview.prepare sampleHashes (Gitlab.rules sampleHashes) ⟨"op-5"⟩ movedSnapshot []
      .comment "**Nit**\n\nLooks good").toOption = some headedReview ∧
    Stored headedReview (summaryAnswers headedReview) [] (summaryAnswers headedReview).note ∧
    ((comments movedTarget (summaryAnswers headedReview)).toOption.map List.length = some 1) ∧
    headedReview.comments.length = 0 := by
  have hprepared := ok_of_toOption summaryReviews_prepared.2
  have hstored := summaryAnswers_stored (p := headedReview) rfl rfl
  have hfile := fileLevelNote_summary hstored.body (plain_fingerprint (prepare_ok hprepared))
    (plain_head movedTarget_refs)
  have hlooks : looksLikeFileNote headedReview.summary = true := by
    decide
  obtain ⟨note, hnote⟩ := Option.isSome_iff_exists.mp (hfile.trans hlooks)
  obtain ⟨found, hfound, hperm⟩ := comments_stored hprepared movedTarget_refs hstored
  rw [hnote] at hperm
  refine ⟨summaryReviews_prepared.2, hstored, ?_, rfl⟩
  rw [show comments movedTarget _ = _ from hfound]
  exact congrArg some hperm.length_eq

end Proof
end Diffz
