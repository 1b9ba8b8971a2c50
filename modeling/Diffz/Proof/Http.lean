import Diffz.Adapters.Http

/-!
# Where the headers of a response end

A server ends all lines of a header block in one style. Neither style can end a block of its own
before the block does, but `decode_http` asks for CRLF in the whole of the output first. So a block
with LF endings is read up to the next empty CRLF line, in whatever stands after it.
-/

set_option autoImplicit false

namespace Diffz
namespace Proof
namespace Http

open Diffz.Http

/-! ## Blocks -/

/-- How the lines of a block end. -/
inductive Ending
  | crlf
  | lf
deriving DecidableEq

def Ending.text : Ending → String
  | .crlf => "\r\n"
  | .lf => "\n"

/-- A line that has no line end of its own. -/
structure HeaderLine (e : Ending) (l : String) : Prop where
  nonempty : l ≠ ""
  single : '\n' ∉ l.toList
  plain : e = .lf → l.toList.getLast? ≠ some '\r'

/-- A block of headers, as a server writes it. -/
structure Block where
  ending : Ending
  first : String
  more : List String
  lines : ∀ l ∈ first :: more, HeaderLine ending l

/-- Lines with their ends between them. -/
def joined (e : Ending) : String → List String → String
  | l, [] => l
  | l, m :: more => l ++ e.text ++ joined e m more

namespace Block

def headers (b : Block) : String := joined b.ending b.first b.more

/-- The last line ends too, and the empty line ends the block. -/
def text (b : Block) : String := b.headers ++ b.ending.text ++ b.ending.text

def status (b : Block) : Option Nat := (lineStatus b.first.toList).toOption

end Block

def written : List Block → String
  | [] => ""
  | b :: bs => b.text ++ written bs

theorem written_append (as bs : List Block) : written (as ++ bs) = written as ++ written bs := by
  induction as with
  | nil => simp [written]
  | cons a as ih => simp [written, ih, String.append_assoc]

theorem asBytes_crlf : asBytes Ending.crlf.text = [13, 10] := by decide +kernel

theorem asBytes_lf : asBytes Ending.lf.text = [10] := by decide +kernel

/-! ## Lines, as bytes -/

namespace HeaderLine

variable {e : Ending} {l : String}

theorem noLf (h : HeaderLine e l) : 10 ∉ asBytes l :=
  fun hm => h.single (mem_toList_of_ascii_mem (by decide) (by decide) hm)

theorem bytes_ne_nil (h : HeaderLine e l) : asBytes l ≠ [] := by
  intro hnil
  refine h.nonempty ?_
  have hempty : fromUtf8 (asBytes l) = fromUtf8 (asBytes "") := congrArg fromUtf8 (hnil.trans rfl)
  simpa using hempty

theorem noCr (h : HeaderLine .lf l) : (asBytes l).getLast? ≠ some 13 := by
  intro hlast
  obtain ⟨t, rfl⟩ := eq_append_of_getLast?_ascii (c := '\r') (by decide) (by decide) hlast
  exact h.plain rfl (by simp)

end HeaderLine

/-! ## Where a gap is found -/

section Gaps

variable {l rest : Bytes}

/-- An empty CRLF line does not begin in a line that ends in LF alone. -/
theorem crlfGap_lf (h : 10 ∉ l) (hcr : l.getLast? ≠ some 13) :
    splitOnce crlfGap (l ++ 10 :: rest) = prepend (l ++ [10]) (splitOnce crlfGap rest) := by
  induction l with
  | nil => exact splitOnce_cons_of_not_prefixed (by simp [crlfGap])
  | cons c l ih =>
    have hl : 10 ∉ l := fun hm => h (List.mem_cons_of_mem c hm)
    have hnot : ¬ crlfGap <+: c :: (l ++ 10 :: rest) := by
      cases l with
      | nil =>
        have hc : ¬ 13 = c := fun hc => hcr (by simp [← hc])
        simp [crlfGap, hc]
      | cons d l =>
        have hd : ¬ 10 = d := fun hd => hl (by simp [hd])
        simp [crlfGap, hd]
    have hcr' : l.getLast? ≠ some 13 := by
      cases l with
      | nil => simp
      | cons d l => simpa using hcr
    rw [List.cons_append, splitOnce_cons_of_not_prefixed hnot, ih hl hcr']
    simp

/-- Nor does it begin in a line that ends in CRLF, unless an empty line follows. -/
theorem crlfGap_crlf (h : 10 ∉ l) (hrest : ¬ [13, 10] <+: rest) :
    splitOnce crlfGap (l ++ 13 :: 10 :: rest) =
      prepend (l ++ [13, 10]) (splitOnce crlfGap rest) := by
  induction l with
  | nil =>
    have hnot : ¬ crlfGap <+: 13 :: 10 :: rest := by simpa [crlfGap] using hrest
    rw [List.nil_append, splitOnce_cons_of_not_prefixed hnot,
      splitOnce_cons_of_not_prefixed (by simp [crlfGap])]
    simp
  | cons c l ih =>
    have hl : 10 ∉ l := fun hm => h (List.mem_cons_of_mem c hm)
    have hnot : ¬ crlfGap <+: c :: (l ++ 13 :: 10 :: rest) := by
      cases l with
      | nil => simp [crlfGap]
      | cons d l =>
        have hd : ¬ 10 = d := fun hd => hl (by simp [hd])
        simp [crlfGap, hd]
    rw [List.cons_append, splitOnce_cons_of_not_prefixed hnot, ih hl]
    simp

theorem crlfGap_end (h : 10 ∉ l) :
    splitOnce crlfGap (l ++ 13 :: 10 :: 13 :: 10 :: rest) = some (l, rest) := by
  induction l with
  | nil => simp [splitOnce, crlfGap]
  | cons c l ih =>
    have hl : 10 ∉ l := fun hm => h (List.mem_cons_of_mem c hm)
    have hnot : ¬ crlfGap <+: c :: (l ++ 13 :: 10 :: 13 :: 10 :: rest) := by
      cases l with
      | nil => simp [crlfGap]
      | cons d l =>
        have hd : ¬ 10 = d := fun hd => hl (by simp [hd])
        simp [crlfGap, hd]
    rw [List.cons_append, splitOnce_cons_of_not_prefixed hnot, ih hl]
    rfl

theorem lfGap_lf (h : 10 ∉ l) (hrest : rest.head? ≠ some 10) :
    splitOnce lfGap (l ++ 10 :: rest) = prepend (l ++ [10]) (splitOnce lfGap rest) := by
  induction l with
  | nil =>
    refine splitOnce_cons_of_not_prefixed fun hpre => hrest ?_
    obtain ⟨t, ht⟩ := hpre
    simp only [lfGap, List.cons_append, List.cons.injEq, true_and] at ht
    rw [← ht]
    rfl
  | cons c l ih =>
    have hl : 10 ∉ l := fun hm => h (List.mem_cons_of_mem c hm)
    have hc : ¬ 10 = c := fun hc => h (by simp [hc])
    rw [List.cons_append, splitOnce_cons_of_not_prefixed (by simp [lfGap, hc]), ih hl]
    simp

theorem lfGap_end (h : 10 ∉ l) : splitOnce lfGap (l ++ 10 :: 10 :: rest) = some (l, rest) :=
  splitOnce_of_head_not_mem h

/-- A line does not begin with an empty line. -/
theorem line_begins (h : 10 ∉ l) (hne : l ≠ []) : ¬ [13, 10] <+: l ++ 13 :: rest := by
  cases l with
  | nil => exact absurd rfl hne
  | cons c l =>
    cases l with
    | nil => simp
    | cons d l =>
      have hd : ¬ 10 = d := fun hd => h (by simp [hd])
      simp [hd]

end Gaps

/-! ## Where a block ends -/

section Blocks

variable {b : Block} {bs : List Block} {l : String} {more : List String} {rest pre post : Bytes}
  {n : Nat}

theorem joined_crlf_begins (h : ∀ m ∈ l :: more, HeaderLine .crlf m) :
    ¬ [13, 10] <+: asBytes (joined .crlf l more) ++ 13 :: rest := by
  have hl := h l List.mem_cons_self
  cases more with
  | nil => exact line_begins hl.noLf hl.bytes_ne_nil
  | cons m more =>
    rw [joined, asBytes_append, asBytes_append, asBytes_crlf, List.append_assoc, List.append_assoc]
    exact line_begins hl.noLf hl.bytes_ne_nil

theorem joined_crlf_end (h : ∀ m ∈ l :: more, HeaderLine .crlf m) :
    splitOnce crlfGap (asBytes (joined .crlf l more) ++ 13 :: 10 :: 13 :: 10 :: rest) =
      some (asBytes (joined .crlf l more), rest) := by
  induction more generalizing l with
  | nil => exact crlfGap_end (h l List.mem_cons_self).noLf
  | cons m more ih =>
    have hmore : ∀ x ∈ m :: more, HeaderLine .crlf x := fun x hx => h x (List.mem_cons_of_mem l hx)
    have hbegins : ¬ [13, 10] <+:
        asBytes (joined .crlf m more) ++ 13 :: 10 :: 13 :: 10 :: rest := joined_crlf_begins hmore
    have hcut := crlfGap_crlf (h l List.mem_cons_self).noLf hbegins
    rw [ih hmore] at hcut
    simpa [joined, asBytes_append, asBytes_crlf] using hcut

/-- No empty CRLF line begins in a block with LF endings. -/
theorem joined_lf_skip (h : ∀ m ∈ l :: more, HeaderLine .lf m) :
    splitOnce crlfGap (asBytes (joined .lf l more) ++ 10 :: rest) =
      prepend (asBytes (joined .lf l more) ++ [10]) (splitOnce crlfGap rest) := by
  have hl := h l List.mem_cons_self
  induction more generalizing l with
  | nil => exact crlfGap_lf hl.noLf hl.noCr
  | cons m more ih =>
    have hmore : ∀ x ∈ m :: more, HeaderLine .lf x := fun x hx => h x (List.mem_cons_of_mem l hx)
    have hcut : splitOnce crlfGap (asBytes l ++ 10 :: (asBytes (joined .lf m more) ++ 10 :: rest)) =
        _ := crlfGap_lf hl.noLf hl.noCr
    rw [ih hmore (hmore m List.mem_cons_self), prepend_prepend] at hcut
    simpa [joined, asBytes_append, asBytes_lf] using hcut

theorem joined_lf_end (h : ∀ m ∈ l :: more, HeaderLine .lf m) :
    splitOnce lfGap (asBytes (joined .lf l more) ++ 10 :: 10 :: rest) =
      some (asBytes (joined .lf l more), rest) := by
  induction more generalizing l with
  | nil => exact lfGap_end (h l List.mem_cons_self).noLf
  | cons m more ih =>
    have hmore : ∀ x ∈ m :: more, HeaderLine .lf x := fun x hx => h x (List.mem_cons_of_mem l hx)
    have hm := hmore m List.mem_cons_self
    have hhead : (asBytes (joined .lf m more) ++ 10 :: 10 :: rest).head? ≠ some 10 := by
      have hpre : asBytes m <+: asBytes (joined .lf m more) ++ 10 :: 10 :: rest := by
        cases more with
        | nil => exact List.prefix_append _ _
        | cons m' more =>
          rw [joined, asBytes_append, asBytes_append, List.append_assoc, List.append_assoc]
          exact List.prefix_append _ _
      obtain ⟨t, ht⟩ := hpre
      rw [← ht, List.head?_append_of_ne_nil _ hm.bytes_ne_nil]
      exact fun hten => hm.noLf (List.mem_of_mem_head? hten)
    have hcut := lfGap_lf (h l List.mem_cons_self).noLf hhead
    rw [ih hmore] at hcut
    simpa [joined, asBytes_append, asBytes_lf] using hcut

theorem text_bytes (b : Block) : asBytes b.text =
    asBytes b.headers ++ asBytes b.ending.text ++ asBytes b.ending.text := by
  rw [Block.text, asBytes_append, asBytes_append]

theorem crlf_block (h : b.ending = .crlf) :
    splitOnce crlfGap (asBytes b.text ++ rest) = some (asBytes b.headers, rest) := by
  rw [text_bytes, h, asBytes_crlf, Block.headers, h]
  simpa using joined_crlf_end (h ▸ b.lines)

theorem lf_block (h : b.ending = .lf) :
    splitOnce crlfGap (asBytes b.text ++ rest) =
      prepend (asBytes b.text) (splitOnce crlfGap rest) := by
  have hcut : splitOnce crlfGap (asBytes (joined .lf b.first b.more) ++ 10 :: 10 :: rest) = _ :=
    joined_lf_skip (h ▸ b.lines)
  rw [splitOnce_cons_of_not_prefixed (by simp [crlfGap]), prepend_prepend] at hcut
  rw [text_bytes, h, asBytes_lf, Block.headers, h]
  simpa using hcut

theorem lf_blocks (h : ∀ b ∈ bs, b.ending = .lf) :
    splitOnce crlfGap (asBytes (written bs) ++ rest) =
      prepend (asBytes (written bs)) (splitOnce crlfGap rest) := by
  induction bs with
  | nil => exact (prepend_nil _).symm
  | cons b bs ih =>
    have hbs : ∀ x ∈ bs, x.ending = .lf := fun x hx => h x (List.mem_cons_of_mem b hx)
    rw [written, asBytes_append, List.append_assoc, lf_block (h b List.mem_cons_self), ih hbs,
      prepend_prepend]

/-! ## What a block says -/

/-- The first line of a text is read without its end. -/
theorem textLines_crlf {l r : List Char} (h : '\n' ∉ l) :
    (textLines (l ++ '\r' :: '\n' :: r)).head? = some l := by
  have hpieces : (l ++ '\r' :: '\n' :: r).splitOn '\n' = (l ++ ['\r']) :: r.splitOn '\n' := by
    have hno : '\n' ∉ l ++ ['\r'] := by simp [h]
    rw [← List.splitOn_append_cons_self_of_not_mem hno]
    simp
  rw [textLines, hpieces, List.dropLast_cons_of_ne_nil (List.splitOn_ne_nil _ _)]
  simp [stripSuffix]

theorem textLines_lf {l r : List Char} (h : '\n' ∉ l) (hcr : l.getLast? ≠ some '\r') :
    (textLines (l ++ '\n' :: r)).head? = some l := by
  have hnot : stripSuffix ['\r'] l = none := by
    rw [stripSuffix, if_neg]
    intro hsuf
    obtain ⟨t, rfl⟩ := List.isSuffixOf_iff_suffix.mp hsuf
    exact hcr (by simp)
  rw [textLines, List.splitOn_append_cons_self_of_not_mem h,
    List.dropLast_cons_of_ne_nil (List.splitOn_ne_nil _ _)]
  simp [hnot]

theorem textLines_single {l : List Char} (h : '\n' ∉ l) (hne : l ≠ []) : textLines l = [l] := by
  rw [textLines, List.splitOn_eq_singleton h]
  simp [hne]

/-- The first line of a block is the first line of all texts that begin with it. -/
theorem textLines_text (b : Block) (t : String) :
    (textLines (b.headers ++ b.ending.text ++ t).toList).head? = some b.first.toList := by
  have hfirst := b.lines b.first List.mem_cons_self
  obtain ⟨u, hu⟩ : ∃ u, (b.headers ++ b.ending.text ++ t).toList =
      b.first.toList ++ (b.ending.text.toList ++ u) := by
    cases hmore : b.more with
    | nil => exact ⟨t.toList, by simp [Block.headers, joined, hmore]⟩
    | cons m more => exact ⟨_, by simp [Block.headers, joined, hmore]; rfl⟩
  rw [hu]
  cases he : b.ending with
  | crlf => exact textLines_crlf hfirst.single
  | lf => exact textLines_lf hfirst.single (hfirst.plain he)

theorem textLines_headers (b : Block) :
    (textLines b.headers.toList).head? = some b.first.toList := by
  have hfirst := b.lines b.first List.mem_cons_self
  cases hmore : b.more with
  | nil =>
    have hne : b.first.toList ≠ [] := by simpa using hfirst.nonempty
    rw [Block.headers, hmore, joined, textLines_single hfirst.single hne]
    rfl
  | cons m more =>
    rw [Block.headers, hmore, joined]
    cases he : b.ending with
    | crlf =>
      have htext : (b.first ++ Ending.crlf.text ++ joined .crlf m more).toList =
          b.first.toList ++ '\r' :: '\n' :: (joined .crlf m more).toList := by
        simp [Ending.text]
      rw [htext]
      exact textLines_crlf hfirst.single
    | lf =>
      have htext : (b.first ++ Ending.lf.text ++ joined .lf m more).toList =
          b.first.toList ++ '\n' :: (joined .lf m more).toList := by
        simp [Ending.text]
      rw [htext]
      exact textLines_lf hfirst.single (hfirst.plain he)

theorem headerStatus_of_first {s : String} (hs : b.status = some n)
    (h : (textLines s.toList).head? = some b.first.toList) : headerStatus s = .ok n := by
  rw [headerStatus, h]
  exact ok_of_toOption hs

theorem decodeBlock_of_split {bytes : Bytes} {s : String}
    (h : splitHeaders bytes = some (asBytes s, post)) (hs : headerStatus s = .ok n) :
    decodeBlock bytes = .ok { status := n, headers := s, body := post } := by
  rw [decodeBlock, h]
  simp [hs]

theorem decodeBlock_crlf (h : b.ending = .crlf) (hs : b.status = some n) :
    decodeBlock (asBytes b.text ++ rest) =
      .ok { status := n, headers := b.headers, body := rest } := by
  refine decodeBlock_of_split ?_ (headerStatus_of_first hs (textLines_headers b))
  rw [splitHeaders, crlf_block h]

theorem decodeBlock_lf (h : b.ending = .lf) (hs : b.status = some n)
    (hrest : splitOnce crlfGap rest = none) :
    decodeBlock (asBytes b.text ++ rest) =
      .ok { status := n, headers := b.headers, body := rest } := by
  refine decodeBlock_of_split ?_ (headerStatus_of_first hs (textLines_headers b))
  have hcut : splitOnce lfGap (asBytes (joined .lf b.first b.more) ++ 10 :: 10 :: rest) = _ :=
    joined_lf_end (h ▸ b.lines)
  rw [splitHeaders, lf_block h, hrest, prepend_none, text_bytes, h, asBytes_lf, Block.headers, h]
  simpa using hcut

/-- A block with LF endings is read on to the next empty CRLF line. -/
theorem decodeBlock_reads_on (h : b.ending = .lf) (hs : b.status = some n) {t : String}
    (hrest : splitOnce crlfGap rest = some (asBytes t, post)) :
    decodeBlock (asBytes b.text ++ rest) =
      .ok { status := n, headers := b.text ++ t, body := post } := by
  refine decodeBlock_of_split ?_ (headerStatus_of_first hs ?_)
  · rw [splitHeaders, lf_block h, hrest, prepend_some, asBytes_append]
  · have hline := textLines_text b (b.ending.text ++ t)
    rwa [← String.append_assoc] at hline

theorem decodeBlock_reads_on_body (h : b.ending = .lf)
    (hrest : splitOnce crlfGap rest = some (pre, post)) {r : HttpResponse}
    (hr : decodeBlock (asBytes b.text ++ rest) = .ok r) : r.body = post := by
  rw [decodeBlock, splitHeaders, lf_block h, hrest, prepend_some] at hr
  split at hr
  · cases hr
  · rename_i heq
    cases heq
    split at hr
    · cases hr
    · split at hr
      · cases hr
      · cases hr
        rfl

end Blocks

/-! ## Outputs -/

variable {interim front bs : List Block} {last : Block} {body tail : Bytes} {n : Nat}

/-- A block of an interim response. -/
def Interim (b : Block) : Prop := ∃ n < 200, b.status = some n

/-- The first block with CRLF endings, and the blocks before it. -/
theorem exists_crlf (h : ¬ ∀ b ∈ bs, b.ending = .lf) :
    ∃ lfs c more, bs = lfs ++ c :: more ∧ (∀ b ∈ lfs, b.ending = .lf) ∧ c.ending = .crlf := by
  induction bs with
  | nil => exact absurd (by simp) h
  | cons b bs ih =>
    cases he : b.ending with
    | crlf => exact ⟨[], b, bs, rfl, by simp, he⟩
    | lf =>
      obtain ⟨lfs, c, more, rfl, hlfs, hc⟩ := ih fun hbs => h (by simpa [he] using hbs)
      exact ⟨b :: lfs, c, more, rfl, by simpa [he] using hlfs, hc⟩

/-- The blocks at the end that have LF endings, and those before, which end in CRLF. -/
theorem exists_lf_end (bs : List Block) : ∃ front lfs, bs = front ++ lfs ∧
    (∀ b ∈ lfs, b.ending = .lf) ∧ ∀ b, front.getLast? = some b → b.ending = .crlf := by
  induction bs using List.reverseRecOn with
  | nil => exact ⟨[], [], rfl, by simp, by simp⟩
  | append_singleton bs b ih =>
    cases he : b.ending with
    | crlf => exact ⟨bs ++ [b], [], by simp, by simp, by simpa using he⟩
    | lf =>
      obtain ⟨front, lfs, rfl, hlfs, hfront⟩ := ih
      refine ⟨front, lfs ++ [b], by simp, ?_, hfront⟩
      intro x hx
      rcases List.mem_append.mp hx with hx | hx
      · exact hlfs x hx
      · exact List.mem_singleton.mp hx ▸ he

/-- **Interim responses are skipped**, where none with LF endings is read on into what follows: it
has no empty CRLF line, or the last of them has CRLF endings. -/
theorem decodeHttp_written (hi : ∀ b ∈ bs, Interim b)
    (h : splitOnce crlfGap tail = none ∨ ∀ b, bs.getLast? = some b → b.ending = .crlf) :
    decodeHttp (asBytes (written bs) ++ tail) = decodeHttp tail := by
  induction hlen : bs.length using Nat.strong_induction_on generalizing bs with
  | _ k ih =>
    cases bs with
    | nil => rfl
    | cons b bs =>
      obtain ⟨n, hn, hs⟩ := hi b List.mem_cons_self
      have hbs : ∀ x ∈ bs, Interim x := fun x hx => hi x (List.mem_cons_of_mem b hx)
      have hlast : ∀ more, more <:+ bs → splitOnce crlfGap tail = none ∨
          ∀ x, more.getLast? = some x → x.ending = .crlf := by
        rintro more ⟨pre, rfl⟩
        refine h.imp_right fun h x hx => h x ?_
        rw [← List.cons_append, List.getLast?_append, hx]
        rfl
      rw [written, asBytes_append, List.append_assoc]
      cases he : b.ending with
      | crlf =>
        rw [decodeHttp_interim (decodeBlock_crlf he hs) hn]
        exact ih bs.length (by simp [← hlen]) hbs (hlast bs (List.suffix_refl bs)) rfl
      | lf =>
        by_cases hall : ∀ x ∈ bs, x.ending = .lf
        · have hnone : splitOnce crlfGap tail = none := by
            refine h.resolve_right fun h => ?_
            have hmem := List.getLast_mem (List.cons_ne_nil b bs)
            have hcrlf := h _ (List.getLast?_eq_getLast_of_ne_nil (List.cons_ne_nil b bs))
            rcases List.mem_cons.mp hmem with hb | hb
            · rw [hb, he] at hcrlf
              cases hcrlf
            · rw [hall _ hb] at hcrlf
              cases hcrlf
          have hrest : splitOnce crlfGap (asBytes (written bs) ++ tail) = none := by
            rw [lf_blocks hall, hnone, prepend_none]
          rw [decodeHttp_interim (decodeBlock_lf he hs hrest) hn]
          exact ih bs.length (by simp [← hlen]) hbs (.inl hnone) rfl
        · -- The block is read on to the end of the first block with CRLF endings.
          obtain ⟨lfs, c, more, rfl, hlfs, hc⟩ := exists_crlf hall
          have hrest : splitOnce crlfGap (asBytes (written (lfs ++ c :: more)) ++ tail) =
              some (asBytes (written lfs ++ c.headers), asBytes (written more) ++ tail) := by
            rw [written_append, written, asBytes_append, asBytes_append, List.append_assoc,
              List.append_assoc, lf_blocks hlfs, crlf_block hc, prepend_some, asBytes_append]
          rw [decodeHttp_interim (decodeBlock_reads_on he hs hrest) hn]
          refine ih more.length ?_ (fun x hx => hbs x (by simp [hx]))
            (hlast more ⟨lfs ++ [c], by simp⟩) rfl
          simp only [← hlen, List.length_cons, List.length_append]
          omega

/-- What follows an empty CRLF line is all that can be taken for the body of blocks with LF
endings. -/
theorem decodeHttp_reads_on {b : Block} {pre post : Bytes} (h : ∀ x ∈ b :: bs, x.ending = .lf)
    (hrest : splitOnce crlfGap tail = some (pre, post)) {r : HttpResponse}
    (hr : decodeHttp (asBytes (written (b :: bs)) ++ tail) = .ok r) :
    r.body.length ≤ post.length := by
  rw [written, asBytes_append, List.append_assoc] at hr
  have hcut : splitOnce crlfGap (asBytes (written bs) ++ tail) =
      some (asBytes (written bs) ++ pre, post) := by
    rw [lf_blocks fun x hx => h x (List.mem_cons_of_mem b hx), hrest, prepend_some]
  obtain ⟨block, hblock, ⟨-, rfl⟩ | ⟨-, hmore⟩⟩ := decodeHttp_ok hr
  · exact (decodeBlock_reads_on_body (h b List.mem_cons_self) hcut hblock).symm ▸ le_refl _
  · rw [decodeBlock_reads_on_body (h b List.mem_cons_self) hcut hblock] at hmore
    exact (decodeHttp_lt hmore).le

/-- The response that was written: the status of the last block, and the body. -/
def Splits (interim : List Block) (last : Block) (status : Nat) (body : Bytes) : Prop :=
  ∃ headers, decodeHttp (asBytes (written interim) ++ asBytes last.text ++ body) =
    .ok { status, headers, body }

/-- No block with LF endings is read on: one that is the last, into the body, or one before the
last, over it. -/
def Apart (interim : List Block) (last : Block) (body : Bytes) : Prop :=
  (last.ending = .lf → ¬ crlfGap <:+: body) ∧
    (last.ending = .crlf → ∀ b, interim.getLast? = some b → b.ending = .crlf)

theorem splits_of_apart (hi : ∀ b ∈ interim, Interim b) (hs : last.status = some n)
    (hn : 200 ≤ n) (h : Apart interim last body) : Splits interim last n body := by
  refine ⟨last.headers, ?_⟩
  rw [List.append_assoc]
  cases he : last.ending with
  | crlf =>
    rw [decodeHttp_written hi (.inr (h.2 he))]
    exact decodeHttp_final (decodeBlock_crlf he hs) hn
  | lf =>
    have hbody : splitOnce crlfGap body = none := (splitOnce_eq_none_iff (by decide)).mpr (h.1 he)
    have hnone : splitOnce crlfGap (asBytes last.text ++ body) = none := by
      rw [lf_block he, hbody, prepend_none]
    rw [decodeHttp_written hi (.inl hnone)]
    exact decodeHttp_final (decodeBlock_lf he hs hbody) hn

/-- The body of a last block with LF endings is cut short by an empty CRLF line of its own. -/
theorem not_splits_of_lf (hi : ∀ b ∈ interim, Interim b) (he : last.ending = .lf)
    (hbody : crlfGap <:+: body) : ¬ Splits interim last n body := by
  rintro ⟨headers, h⟩
  obtain ⟨⟨pre, post⟩, hcut⟩ := Option.ne_none_iff_exists'.mp
    (mt (splitOnce_eq_none_iff (by decide)).mp (not_not.mpr hbody))
  obtain ⟨front, lfs, rfl, hlfs, hfront⟩ := exists_lf_end interim
  have hlast : ∀ x ∈ lfs ++ [last], x.ending = .lf := by
    intro x hx
    rcases List.mem_append.mp hx with hx | hx
    · exact hlfs x hx
    · exact List.mem_singleton.mp hx ▸ he
  have hshort : body.length ≤ post.length := by
    rw [written_append, asBytes_append, List.append_assoc, List.append_assoc,
      decodeHttp_written (fun b hb => hi b (List.mem_append_left lfs hb)) (.inr hfront)] at h
    have htext : asBytes (written lfs) ++ (asBytes last.text ++ body) =
        asBytes (written (lfs ++ [last])) ++ body := by
      simp [written_append, written, asBytes_append]
    rw [htext] at h
    cases lfs with
    | nil => exact decodeHttp_reads_on hlast hcut h
    | cons b lfs => exact decodeHttp_reads_on hlast hcut h
  rw [((splitOnce_eq_some_iff (by decide)).mp hcut).1] at hshort
  simp only [List.length_append, crlfGap, List.length_cons, List.length_nil] at hshort
  omega

/-- A last block with CRLF endings is taken for a part of the interim response before it. -/
theorem not_splits_of_crlf (hi : ∀ b ∈ interim, Interim b) (he : last.ending = .crlf) {b : Block}
    (hlast : interim.getLast? = some b) (hb : b.ending = .lf) : ¬ Splits interim last n body := by
  rintro ⟨headers, h⟩
  obtain ⟨front, lfs, rfl, hlfs, hfront⟩ := exists_lf_end interim
  rw [written_append, asBytes_append, List.append_assoc, List.append_assoc,
    decodeHttp_written (fun b hb => hi b (List.mem_append_left lfs hb)) (.inr hfront)] at h
  cases lfs with
  | nil =>
    rw [List.append_nil] at hlast
    rw [hfront b hlast] at hb
    cases hb
  | cons c lfs =>
    obtain ⟨k, hk, hs⟩ := hi c (by simp)
    have hcut : splitOnce crlfGap (asBytes (written lfs) ++ (asBytes last.text ++ body)) =
        some (asBytes (written lfs ++ last.headers), body) := by
      rw [lf_blocks fun x hx => hlfs x (List.mem_cons_of_mem c hx), crlf_block he, prepend_some,
        asBytes_append]
    rw [written, asBytes_append, List.append_assoc,
      decodeHttp_interim (decodeBlock_reads_on (hlfs c List.mem_cons_self) hs hcut) hk] at h
    exact absurd (decodeHttp_lt h) (lt_irrefl _)

/-- **The split, exactly.** The response is found where the headers end if and only if no block with
LF endings is read on. -/
theorem decodeHttp_splits_iff (hi : ∀ b ∈ interim, Interim b) (hs : last.status = some n)
    (hn : 200 ≤ n) : Splits interim last n body ↔ Apart interim last body := by
  refine ⟨fun h => ⟨fun he hbody => ?_, fun he b hlast => ?_⟩, splits_of_apart hi hs hn⟩
  · exact not_splits_of_lf hi he hbody h
  · cases hb : b.ending with
    | crlf => rfl
    | lf => exact absurd h (not_splits_of_crlf hi he hlast hb)

def continueBlock : Block where
  ending := .lf
  first := "HTTP/1.1 100 Continue"
  more := []
  lines := by
    intro l hl
    obtain rfl := List.mem_singleton.mp hl
    exact ⟨by decide, by decide, fun _ => by decide⟩

def textBlock : Block where
  ending := .lf
  first := "HTTP/2.0 200 OK"
  more := ["Content-Type: text/plain"]
  lines := by
    intro l hl
    simp only [List.mem_cons, List.not_mem_nil, or_false] at hl
    rcases hl with rfl | rfl
    all_goals exact ⟨by decide, by decide, fun _ => by decide⟩

theorem continue_then_text : Splits [continueBlock] textBlock 200 (asBytes "a\n\nb\r\n") := by
  have hinterim : ∀ b ∈ [continueBlock], Interim b := by
    intro b hb
    obtain rfl := List.mem_singleton.mp hb
    exact ⟨100, by decide, by decide +kernel⟩
  refine (decodeHttp_splits_iff hinterim (by decide +kernel) (le_refl 200)).mpr ⟨fun _ => ?_, ?_⟩
  · decide +kernel
  · intro hcrlf
    cases hcrlf

/-- A text with CRLF endings loses what stands before its first empty line. -/
theorem empty_line_cuts_body : textBlock.status = some 200 ∧
    decodeHttp (asBytes (written []) ++ asBytes textBlock.text ++ asBytes "a\r\n\r\nb\r\n") =
      .ok { status := 200, headers := "HTTP/2.0 200 OK\nContent-Type: text/plain\n\na",
            body := asBytes "b\r\n" } ∧
    ¬ Splits [] textBlock 200 (asBytes "a\r\n\r\nb\r\n") := by
  have hdecode : decodeHttp
      (asBytes (written []) ++ asBytes textBlock.text ++ asBytes "a\r\n\r\nb\r\n") =
        .ok { status := 200, headers := "HTTP/2.0 200 OK\nContent-Type: text/plain\n\na",
              body := asBytes "b\r\n" } :=
    decodeHttp_final (by decide +kernel) (le_refl 200)
  refine ⟨by decide +kernel, hdecode, ?_⟩
  rintro ⟨headers, h⟩
  rw [hdecode] at h
  have hbody : asBytes "b\r\n" = asBytes "a\r\n\r\nb\r\n" :=
    congrArg HttpResponse.body (Except.ok.inj h)
  exact absurd hbody (by decide +kernel)

end Http
end Proof
end Diffz
