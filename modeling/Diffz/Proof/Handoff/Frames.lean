import Diffz.Adapters.Handoff
import Diffz.Lib.JsonText

/-!
# A frame is read as it was sent

A frame is one line: the writer of JSON puts no newline into a value, so the first newline is the one
`frame` adds. Its length is bounded on both sides by the same number, the newline included, so
`read_line` never cuts a frame that was sent. The token is admitted on both sides and `frame` may
drop it, so it arrives unchanged or not at all.
-/

set_option autoImplicit false

namespace Diffz
namespace Proof
namespace Handoff

open Diffz.Handoff
open Diffz.Json (ParsesLine InWidth)

/-! ## Requests -/

theorem openRequest_reads {r : OpenRequest} {j : Json} (h : r.toJson = some j) :
    OpenRequest.fromJson j = some r := by
  cases r with
  | fixture id =>
    cases h
    rfl
  | remote provider address =>
    cases h
    rfl
  | resume id =>
    cases h
    rfl
  | patch path =>
    obtain ⟨text, htext, rfl⟩ := Option.map_eq_some_iff.mp h
    rw [← asBytes_of_fromUtf8 htext]
    rfl
  | localGit root base head =>
    obtain ⟨text, htext, rfl⟩ := Option.map_eq_some_iff.mp h
    rw [← asBytes_of_fromUtf8 htext]
    rfl
  | localIndex root =>
    obtain ⟨text, htext, rfl⟩ := Option.map_eq_some_iff.mp h
    rw [← asBytes_of_fromUtf8 htext]
    rfl
  | localWorktree root =>
    obtain ⟨text, htext, rfl⟩ := Option.map_eq_some_iff.mp h
    rw [← asBytes_of_fromUtf8 htext]
    rfl

theorem openRequest_obj {r : OpenRequest} {j : Json} (h : r.toJson = some j) :
    ∃ fields, j = .obj fields := by
  cases r with
  | fixture id => exact ⟨_, (Option.some.inj h).symm⟩
  | remote provider address => exact ⟨_, (Option.some.inj h).symm⟩
  | resume id => exact ⟨_, (Option.some.inj h).symm⟩
  | _ =>
    obtain ⟨text, -, hj⟩ := Option.map_eq_some_iff.mp h
    exact ⟨_, hj.symm⟩

theorem openRequest_plain {r : OpenRequest} {j : Json} (h : r.toJson = some j) :
    Json.Plain 126 j := by
  cases r with
  | fixture id =>
    cases h
    simp
  | remote provider address =>
    cases h
    simp
  | resume id =>
    cases h
    simp
  | _ =>
    obtain ⟨text, -, rfl⟩ := Option.map_eq_some_iff.mp h
    simp

/-- The field `request` of a message; there is none when a path is not UTF-8. -/
def requestJson : Option OpenRequest → Option Json
  | none => some .null
  | some r => r.toJson

theorem requestJson_reads {request : Option OpenRequest} {j : Json}
    (h : requestJson request = some j) : Json.asOption OpenRequest.fromJson j = some request := by
  cases request with
  | none =>
    cases h
    rfl
  | some r =>
    obtain ⟨fields, rfl⟩ := openRequest_obj h
    rw [Json.asOption, openRequest_reads h]
    · rfl
    · intro hnull
      cases hnull

theorem requestJson_plain {request : Option OpenRequest} {j : Json}
    (h : requestJson request = some j) : Json.Plain 126 j := by
  cases request with
  | none =>
    cases h
    exact .null
  | some r => exact openRequest_plain h

/-! ## Messages -/

/-- The document `encode` writes, with the field of the request. -/
def document (m : Message) (request : Json) : Json :=
  .obj ([("version", .num m.version), ("request", request), ("writes", m.writes.toJson)] ++
    skipNone "activation_token" (m.activationToken.map Json.str))

theorem encode_eq {m : Message} {request : Json} (h : requestJson m.request = some request) :
    m.encode = .ok (Json.toVec (document m request) ++ [10]) := by
  unfold Message.encode
  obtain ⟨version, r, writes, token⟩ := m
  cases r with
  | none =>
    cases h
    rfl
  | some r =>
    have hr : r.toJson = some request := h
    simp only [hr]
    rfl

theorem optionalActivationToken_reads (token : Option String) :
    ((token.map Json.str).map optionalActivationToken).getD (some none) =
      some (token.bind admitActivationToken) := by
  cases token <;> rfl

theorem document_reads {m : Message} {request : Json} (h : requestJson m.request = some request)
    (hv : InWidth 32 m.version) :
    Message.fromJson (document m request) =
      some { m with activationToken := m.activationToken.bind admitActivationToken } := by
  have htoken := optionalActivationToken_reads m.activationToken
  simp only [Option.map_map] at htoken
  simp [Message.fromJson, document, Json.required, Json.optional, Json.orDefault, Json.field,
    Writes.toJson, Writes.fromJson, Json.asUint_natCast hv, requestJson_reads h, htoken]

theorem document_plain {m : Message} {request : Json} (h : requestJson m.request = some request)
    (hv : InWidth 64 m.version) : Json.Plain 127 (document m request) := by
  have htoken : ∀ j ∈ m.activationToken.map Json.str, Json.Plain 126 j := by
    intro j hj
    obtain ⟨token, -, rfl⟩ := Option.map_eq_some_iff.mp hj
    exact .str token
  simp only [document, Json.plain_obj, Json.plainFields_append, Json.plainFields_cons,
    Json.plainFields_nil, Json.plainFields_skipNone, Writes.toJson]
  exact ⟨⟨.num hv, requestJson_plain h, ⟨.bool _, .bool _, trivial⟩, trivial⟩, htoken⟩

/-! ## Lines -/

theorem untilNewline_line {body : Bytes} (h : 10 ∉ body) (rest : Bytes) :
    untilNewline (body ++ 10 :: rest) = body ++ [10] := by
  have hbody : ∀ b ∈ body, decide (b ≠ 10) = true := by
    intro b hb
    exact decide_eq_true fun heq => h (heq ▸ hb)
  rw [untilNewline, List.takeWhile_append_of_pos hbody, List.dropWhile_append_of_pos hbody]
  simp

/-- A line within the limit is read whole, whatever follows it. -/
theorem readLine_line {text : String} (htext : '\n' ∉ text.toList)
    (hlen : (asBytes (text ++ "\n")).length ≤ limit) (rest : Bytes) :
    readLine (asBytes (text ++ "\n") ++ rest) = .ok (text ++ "\n") := by
  have hbody : 10 ∉ asBytes text := by
    intro h
    exact htext (mem_toList_of_ascii_mem (c := '\n') (by decide) rfl h)
  have hbytes : asBytes (text ++ "\n") = asBytes text ++ [10] := asBytes_append text "\n"
  have huntil : untilNewline ((asBytes (text ++ "\n") ++ rest).take limit) =
      asBytes (text ++ "\n") := by
    rw [List.take_append, List.take_of_length_le hlen, hbytes, List.append_assoc]
    exact untilNewline_line hbody _
  unfold readLine
  rw [huntil, fromUtf8_asBytes]
  simp

/-- What the reader of a line makes of a message. -/
theorem line_survives {parse : Bytes → Option Json} (hparse : ParsesLine parse) {m : Message}
    {bytes : Bytes} (hr : (requestJson m.request).isSome) (hv : m.version = version)
    (henc : m.encode = .ok bytes) (hlen : bytes.length ≤ limit) :
    (∃ body, bytes = body ++ [10] ∧ 10 ∉ body) ∧
      ∃ text, asBytes text = bytes ∧ (∀ rest, readLine (bytes ++ rest) = .ok text) ∧
        Message.fromStr parse text =
          some { m with activationToken := m.activationToken.bind admitActivationToken } := by
  obtain ⟨request, hrequest⟩ := Option.isSome_iff_exists.mp hr
  have hwidth : InWidth 32 m.version := by
    rw [hv]
    decide
  rw [encode_eq hrequest] at henc
  obtain rfl := Except.ok.inj henc
  have htext : asBytes (String.ofList (Json.render (document m request)) ++ "\n") =
      Json.toVec (document m request) ++ [10] := by
    rw [asBytes_append, ← Json.toVec_eq_asBytes]
    rfl
  refine ⟨⟨_, rfl, Json.toVec_one_line _⟩, _, htext, ?_, ?_⟩
  · rw [← htext] at hlen ⊢
    refine readLine_line ?_ hlen
    rw [String.toList_ofList]
    exact Json.render_one_line _
  · rw [Message.fromStr, htext, hparse _ (document_plain hrequest (hwidth.le (by decide))),
      Option.bind_some, document_reads hrequest hwidth]

/-! ## Frames -/

/-- The message has a frame within the limit. -/
def Fits (m : Message) : Prop := ∃ bytes, m.encode = .ok bytes ∧ bytes.length ≤ limit

/-- The message has a frame beyond the limit. -/
def TooLong (m : Message) : Prop := ∃ bytes, m.encode = .ok bytes ∧ limit < bytes.length

theorem fits_or_tooLong {m : Message} (hr : (requestJson m.request).isSome) :
    Fits m ∨ TooLong m := by
  obtain ⟨request, hrequest⟩ := Option.isSome_iff_exists.mp hr
  rcases Nat.lt_or_ge limit (Json.toVec (document m request) ++ [10]).length with h | h
  · exact .inr ⟨_, encode_eq hrequest, h⟩
  · exact .inl ⟨_, encode_eq hrequest, h⟩

theorem TooLong.not_fits {m : Message} (h : TooLong m) : ¬ Fits m := by
  rintro ⟨bytes, henc, hlen⟩
  obtain ⟨bytes', henc', hlen'⟩ := h
  rw [henc] at henc'
  obtain rfl := Except.ok.inj henc'
  omega

theorem fit_of_fits {m : Message} (h : Fits m) : fit m = .ok m := by
  obtain ⟨bytes, henc, hlen⟩ := h
  simp only [fit, henc, bind, Except.bind, if_pos hlen]
  rfl

theorem fit_of_tooLong {m : Message} (h : TooLong m) :
    fit m = match m.activationToken with
      | none => .error "handoff request exceeds the 65536-byte frame limit"
      | some _ => fit { m with activationToken := none } := by
  obtain ⟨bytes, henc, hlen⟩ := h
  conv_lhs => unfold fit
  simp only [henc, bind, Except.bind, if_neg (not_le.mpr hlen)]
  cases m.activationToken with
  | none => rfl
  | some token => rfl

theorem fit_of_tooLong_bare {m : Message} (h : TooLong { m with activationToken := none }) :
    fit { m with activationToken := none } =
      .error "handoff request exceeds the 65536-byte frame limit" :=
  fit_of_tooLong h

theorem admit_eq_some {token t : String} (h : admitActivationToken token = some t) :
    t = token ∧ admitActivationToken t = some t := by
  have heq : t = token := by
    unfold admitActivationToken at h
    split at h
    · exact (Option.some.inj h).symm
    · cases h
  exact ⟨heq, heq ▸ h⟩

/-- Admitting twice is admitting once. -/
theorem bind_admit (token : Option String) :
    (token.bind admitActivationToken).bind admitActivationToken =
      token.bind admitActivationToken := by
  cases h : token.bind admitActivationToken with
  | none => rfl
  | some t =>
    obtain ⟨u, -, hu⟩ := Option.bind_eq_some_iff.mp h
    exact (admit_eq_some hu).2

theorem admitted_or_none (token : Option String) :
    token.bind admitActivationToken = none ∨ token.bind admitActivationToken = token := by
  cases h : token.bind admitActivationToken with
  | none => exact .inl rfl
  | some t =>
    obtain ⟨u, hu, ht⟩ := Option.bind_eq_some_iff.mp h
    refine .inr ?_
    rw [hu, (admit_eq_some ht).1]

/-- The message that was sent, as the other side has it. -/
structure Received (request : Option OpenRequest) (writes : Writes) (token : Option String)
    (m : Message) : Prop where
  same : m.version = version ∧ m.request = request ∧ m.writes = writes
  whole : m.activationToken = none ∨ m.activationToken = token
  admitted : ∀ t, token = some t → admitActivationToken t = some t →
    Fits ⟨version, request, writes, some t⟩ → m.activationToken = some t

/-- A frame that the other side reads whole and as it was meant. -/
structure Arrives (parse : Bytes → Option Json) (request : Option OpenRequest) (writes : Writes)
    (token : Option String) (bytes : Bytes) : Prop where
  short : bytes.length ≤ limit
  line : ∃ body, bytes = body ++ [10] ∧ 10 ∉ body
  read : ∃ text m, asBytes text = bytes ∧ (∀ rest, readLine (bytes ++ rest) = .ok text) ∧
    Message.fromStr parse text = some m ∧ Received request writes token m

section Frame

variable {parse : Bytes → Option Json} {request : Option OpenRequest} {writes : Writes}
  {token : Option String}

theorem frame_whole (hparse : ParsesLine parse) (hr : (requestJson request).isSome)
    (h : Fits (message request writes token)) :
    ∃ bytes, frame request writes token = .ok bytes ∧ Arrives parse request writes token bytes := by
  have hfit := fit_of_fits h
  obtain ⟨bytes, henc, hlen⟩ := h
  obtain ⟨hline, text, htext, hread, hback⟩ := line_survives hparse hr rfl henc hlen
  refine ⟨bytes, ?_, hlen, hline, text, _, htext, hread, hback, ⟨rfl, rfl, rfl⟩, ?_, ?_⟩
  · rw [frame, hfit]
    exact henc
  · have htoken : (message request writes token).activationToken.bind admitActivationToken =
        token.bind admitActivationToken := bind_admit token
    rw [htoken]
    exact admitted_or_none token
  · rintro t rfl hadmit -
    have htoken : (message request writes (some t)).activationToken = some t := hadmit
    simp only [htoken, Option.bind_some]
    exact hadmit

/-- The frame without the token is sent where the one with it is too long. -/
theorem frame_bare (hparse : ParsesLine parse) (hr : (requestJson request).isSome)
    (hlong : TooLong (message request writes token)) (h : Fits (message request writes none)) :
    ∃ bytes, frame request writes token = .ok bytes ∧ Arrives parse request writes token bytes := by
  have hfit : fit (message request writes token) = .ok (message request writes none) := by
    rw [fit_of_tooLong hlong]
    cases ht : (message request writes token).activationToken with
    | none =>
      have hsame : message request writes token = message request writes none := by
        rw [message, message, show token.bind admitActivationToken = none from ht]
        rfl
      exact absurd (hsame ▸ h) hlong.not_fits
    | some t => exact fit_of_fits h
  obtain ⟨bytes, henc, hlen⟩ := h
  obtain ⟨hline, text, htext, hread, hback⟩ := line_survives hparse hr rfl henc hlen
  refine ⟨bytes, ?_, hlen, hline, text, _, htext, hread, hback, ⟨rfl, rfl, rfl⟩, .inl rfl, ?_⟩
  · rw [frame, hfit]
    exact henc
  · rintro t rfl hadmit hfits
    refine absurd hfits ?_
    have hsame : message request writes (some t) = ⟨version, request, writes, some t⟩ := by
      rw [message, Option.bind_some, hadmit]
    rw [← hsame]
    exact hlong.not_fits

theorem frame_tooLong (hlong : TooLong (message request writes token))
    (h : TooLong (message request writes none)) :
    frame request writes token = .error "handoff request exceeds the 65536-byte frame limit" := by
  have hfit : fit (message request writes token) =
      .error "handoff request exceeds the 65536-byte frame limit" := by
    rw [fit_of_tooLong hlong]
    cases (message request writes token).activationToken with
    | none => rfl
    | some t => exact fit_of_tooLong_bare (m := message request writes token) h
  rw [frame, hfit]
  rfl

/-- The version is read alike from the header and from the message. -/
theorem headerVersion_of_fromStr {line : String} {m : Message}
    (h : Message.fromStr parse line = some m) : headerVersion parse line = some m.version := by
  obtain ⟨j, hj, hm⟩ := Option.bind_eq_some_iff.mp h
  obtain ⟨v, hv, hm⟩ := Option.bind_eq_some_iff.mp hm
  obtain ⟨r, -, hm⟩ := Option.bind_eq_some_iff.mp hm
  obtain ⟨w, -, hm⟩ := Option.bind_eq_some_iff.mp hm
  obtain ⟨t, -, hm⟩ := Option.bind_eq_some_iff.mp hm
  cases hm
  rw [headerVersion, hj]
  exact hv

/-- A request that was sent whole reaches a window that has the writes it asks for. -/
theorem accept_frame (place : String → Nat × Nat) {granted : Writes}
    (hwrites : missingWriteFlag writes granted = none) {bytes : Bytes}
    (h : Arrives parse request writes token bytes) (rest : Bytes) :
    ∃ t, accept parse place granted (bytes ++ rest) = .ok (request, t) ∧ (t = none ∨ t = token) := by
  obtain ⟨text, m, -, hread, hback, hm⟩ := h.read
  refine ⟨m.activationToken, ?_, hm.whole⟩
  obtain ⟨hv, hrequest, hw⟩ := hm.same
  have hversion : headerVersion parse text = some version := by
    rw [headerVersion_of_fromStr hback, hv]
  have hgranted : missingWriteFlag m.writes granted = none := by
    rw [hw]
    exact hwrites
  simp only [accept, hread, hversion, hback, hgranted, hrequest, ne_eq, not_true, if_false]

end Frame

/-- **Frames decode to what was sent.** A frame with a request that can be encoded fails only when it
is too long without a token. -/
theorem frames_decode {parse : Bytes → Option Json} (hparse : ParsesLine parse)
    (request : Option OpenRequest) (writes : Writes) (token : Option String)
    (hr : ∀ r, request = some r → r.toJson.isSome) :
    ((∃ e, frame request writes token = .error e) ∧ TooLong (message request writes none)) ∨
      ∃ bytes, frame request writes token = .ok bytes ∧
        Arrives parse request writes token bytes := by
  have hjson : (requestJson request).isSome := by
    cases request with
    | none => rfl
    | some r => exact hr r rfl
  rcases fits_or_tooLong (m := message request writes token) hjson with hfits | hlong
  · exact .inr (frame_whole hparse hjson hfits)
  rcases fits_or_tooLong (m := message request writes none) hjson with hbare | hbare
  · exact .inr (frame_bare hparse hjson hlong hbare)
  · exact .inl ⟨⟨_, frame_tooLong hlong hbare⟩, hbare⟩

/-! ## Example: a review with a token -/

/-- The parser of exactly the lines that are written. -/
noncomputable def parseLine : Bytes → Option Json :=
  Function.partialInv fun j => Json.toVec j ++ [10]

theorem parseLine_back : ParsesLine parseLine := by
  have hinj : Function.Injective fun j => Json.toVec j ++ [10] :=
    fun _ _ h => Json.toVec_injective (List.append_cancel_right h)
  exact fun j _ => Function.partialInv_left hinj j

def sampleRequest : OpenRequest := .remote .github "owner/repo#1"

theorem sampleRequest_decodes :
    ((∃ e, frame (some sampleRequest) ⟨true, false⟩ (some "t\n\"") = .error e) ∧
        TooLong (message (some sampleRequest) ⟨true, false⟩ none)) ∨
      ∃ bytes, frame (some sampleRequest) ⟨true, false⟩ (some "t\n\"") = .ok bytes ∧
        Arrives parseLine (some sampleRequest) ⟨true, false⟩ (some "t\n\"") bytes :=
  frames_decode parseLine_back (some sampleRequest) ⟨true, false⟩ (some "t\n\"") (by
    intro r hr
    cases hr
    rfl)

end Handoff
end Proof
end Diffz
