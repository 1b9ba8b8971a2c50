import Diffz.Core.MoveLabel

/-!
# Move labels are lossless

Equal bytes at either end of two paths may stop inside of a character, but a slash is a character
wherever its byte is. So the cut behind the last shared slash, and the one before the first slash of
the shared tail, are boundaries of both paths.
-/

set_option autoImplicit false

namespace Diffz
namespace Proof
namespace MoveLabels

variable {old new s t p q u u' v : List Char} {x y bytes : Bytes}

/-! ## Slashes -/

theorem slash_split (h : textBytes s = x ++ 47 :: y) :
    ∃ u v, s = u ++ '/' :: v ∧ textBytes u = x ∧ textBytes v = y :=
  textBytes_split (by decide) (by decide) h

theorem textBytes_slash : textBytes ['/'] = [47] := by decide

theorem textBytes_isPrefix (h : p <+: s) : textBytes p <+: textBytes s := by
  obtain ⟨r, rfl⟩ := h
  exact ⟨textBytes r, (textBytes_append p r).symm⟩

theorem checkedSub_eq {a b : Nat} (h : b ≤ a) : checkedSub a b = some (a - b) := if_pos h

/-! ## The cut -/

/-- What both paths begin with, in bytes. -/
def sharedHead (old new : List Char) : Bytes :=
  (textBytes old).take (sharedLength (textBytes old) (textBytes new))

/-- Where `MoveLabel::new` cuts both paths. -/
def cutOf (old new : List Char) : Nat :=
  ((rposition (· == 47) (sharedHead old new)).map (· + 1)).getD 0

/-- **The cut is behind the longest folder** that both paths begin with. -/
theorem cutOf_spec (old new : List Char) : ∃ p oldRest newRest,
    old = p ++ oldRest ∧ new = p ++ newRest ∧ cutOf old new = byteLen p ∧
      (p = [] ∨ p.getLast? = some '/') ∧
      ∀ q, q <+: old → q <+: new → q.getLast? = some '/' → q <+: p := by
  have hhead : ∀ q, q <+: old → q <+: new → textBytes q <+: sharedHead old new := by
    intro q hold hnew
    have hle := le_sharedLength (textBytes_isPrefix hold) (textBytes_isPrefix hnew)
    rw [sharedHead, List.prefix_take_iff]
    exact ⟨textBytes_isPrefix hold, hle⟩
  have hlast : ∀ q : List Char, q.getLast? = some '/' → ∃ w, textBytes q = w ++ [47] := by
    intro q hq
    obtain ⟨q, rfl⟩ := List.getLast?_eq_some_iff.mp hq
    exact ⟨textBytes q, by rw [textBytes_append, textBytes_slash]⟩
  rw [cutOf]
  cases hpos : rposition (· == 47) (sharedHead old new) with
  | none =>
    refine ⟨[], old, new, rfl, rfl, rfl, .inl rfl, fun q hold hnew hq => ?_⟩
    obtain ⟨w, hw⟩ := hlast q hq
    have hmem := (hhead q hold hnew).subset (hw ▸ List.mem_append_right w (List.mem_singleton_self _))
    exact absurd (rposition_eq_none hpos _ hmem) (by decide)
  | some i =>
    obtain ⟨a, b, rest, hsplit, hb, rfl, hrest⟩ := rposition_split hpos
    obtain rfl : b = 47 := beq_iff_eq.mp hb
    have hold : textBytes old = a ++ 47 :: (rest ++ (textBytes old).drop
        (sharedLength (textBytes old) (textBytes new))) := by
      rw [← List.cons_append, ← List.append_assoc, ← hsplit, sharedHead, List.take_append_drop]
    have hnew : textBytes new = a ++ 47 :: (rest ++ (textBytes new).drop
        (sharedLength (textBytes old) (textBytes new))) := by
      rw [← List.cons_append, ← List.append_assoc, ← hsplit, sharedHead,
        take_sharedLength, List.take_append_drop]
    obtain ⟨u, v, rfl, hu, -⟩ := slash_split hold
    obtain ⟨u', v', rfl, hu', -⟩ := slash_split hnew
    obtain rfl : u' = u := textBytes_injective (hu'.trans hu.symm)
    have hlen : byteLen (u' ++ ['/']) = a.length + 1 := by
      rw [← length_textBytes, textBytes_append, hu, textBytes_slash, List.length_append]
      rfl
    refine ⟨u' ++ ['/'], v, v', by simp, by simp, hlen.symm, .inr (by simp), ?_⟩
    intro q hold' hnew' hq
    refine isPrefix_of_byteLen_le ⟨v, by simp⟩ hold' ?_
    obtain ⟨w, hw⟩ := hlast q hq
    have hin := hhead q hold' hnew'
    rw [hsplit, hw] at hin
    rw [← length_textBytes, hw, hlen, List.length_append]
    by_contra hlt
    -- A longer one would end in a slash after the last one.
    have hbefore : a ++ [47] <+: w := by
      refine List.prefix_of_prefix_length_le ⟨rest, ?_⟩ ((List.prefix_append w [47]).trans hin) ?_
      · rw [List.append_assoc, List.singleton_append]
      · rw [List.length_append]
        simp only [List.length_singleton] at hlt ⊢
        omega
    obtain ⟨m, rfl⟩ := hbefore
    obtain ⟨z, hz⟩ := hin
    have hcancel : m ++ [47] ++ z = rest := by
      have hall : a ++ [47] ++ (m ++ [47] ++ z) = a ++ [47] ++ rest := by
        simpa [List.append_assoc] using hz
      exact List.append_cancel_left hall
    have hmem : 47 ∈ rest := by simp [← hcancel]
    exact absurd (hrest 47 hmem) (by decide)

/-! ## The tail -/

/-- What two texts share at their ends. -/
def sharedTail (s t : List Char) : Nat :=
  sharedLength (textBytes s).reverse (textBytes t).reverse

theorem sharedTail_le (s t : List Char) : sharedTail s t ≤ byteLen s ∧ sharedTail s t ≤ byteLen t := by
  have hle := sharedLength_le (textBytes s).reverse (textBytes t).reverse
  rwa [List.length_reverse, List.length_reverse, length_textBytes, length_textBytes] at hle

theorem drop_sharedTail (s t : List Char) :
    (textBytes s).drop (byteLen s - sharedTail s t) =
      (textBytes t).drop (byteLen t - sharedTail s t) := by
  have htake := take_sharedLength (textBytes s).reverse (textBytes t).reverse
  rw [List.take_reverse, List.take_reverse, List.reverse_inj, length_textBytes,
    length_textBytes] at htake
  exact htake

/-- How much of the shared tail is kept as the suffix. -/
def keepOf (s t : List Char) : Nat :=
  match ((textBytes s).drop (byteLen s - sharedTail s t)).findIdx? (· == 47) with
  | none => 0
  | some i => sharedTail s t - i

/-- **The suffix begins with a folder** in both, and no length goes below zero. -/
theorem keepOf_spec (s t : List Char) : ∃ u u' v, s = u ++ v ∧ t = u' ++ v ∧
    keepOf s t = byteLen v ∧ (v = [] ∨ v.head? = some '/') ∧
      ∀ i, ((textBytes s).drop (byteLen s - sharedTail s t)).findIdx? (· == 47) = some i →
        i ≤ sharedTail s t := by
  rw [keepOf]
  cases hpos : ((textBytes s).drop (byteLen s - sharedTail s t)).findIdx? (· == 47) with
  | none =>
    refine ⟨s, t, [], by simp, by simp, rfl, .inl rfl, fun i hi => ?_⟩
    cases hi
  | some i =>
    obtain ⟨a, b, rest, hsplit, hb, rfl⟩ := findIdx?_split hpos
    obtain rfl : b = 47 := beq_iff_eq.mp hb
    have hs : textBytes s = (textBytes s).take (byteLen s - sharedTail s t) ++ a ++ 47 :: rest := by
      rw [List.append_assoc, ← hsplit, List.take_append_drop]
    have ht : textBytes t = (textBytes t).take (byteLen t - sharedTail s t) ++ a ++ 47 :: rest := by
      rw [List.append_assoc, ← hsplit, drop_sharedTail, List.take_append_drop]
    have hlen : sharedTail s t = a.length + (rest.length + 1) := by
      have hle := (sharedTail_le s t).1
      have hdrop := congrArg List.length hsplit
      rw [List.length_drop, length_textBytes, List.length_append, List.length_cons] at hdrop
      omega
    obtain ⟨u, v, hsv, -, hv⟩ := slash_split hs
    obtain ⟨u', v', htv, -, hv'⟩ := slash_split ht
    obtain rfl : v' = v := textBytes_injective (hv'.trans hv.symm)
    refine ⟨u, u', '/' :: v', hsv, htv, ?_, .inr rfl, fun i hi => ?_⟩
    · have hslash : ('/' : Char).utf8Size = 1 := by decide
      dsimp only
      rw [byteLen_cons, ← length_textBytes, hv, hslash]
      omega
    · cases hi
      omega

/-! ## The label -/

/-- With these cuts no slice is off a boundary, and no length below zero. -/
theorem ofPaths_eq (hold : old = p ++ s) (hnew : new = p ++ t) (hcut : cutOf old new = byteLen p)
    (hs : s = u ++ v) (ht : t = u' ++ v) (hkeep : keepOf s t = byteLen v)
    (hbound : ∀ i, ((textBytes s).drop (byteLen s - sharedTail s t)).findIdx? (· == 47) = some i →
      i ≤ sharedTail s t) :
    MoveLabel.ofPaths old new = some ⟨p, u, u', v⟩ := by
  have hshared := sharedTail_le s t
  have hcutOld : splitBytes (cutOf old new) old = some (p, s) := by
    rw [hcut, hold, splitBytes_append]
  have hcutNew : splitBytes (cutOf old new) new = some (p, t) := by
    rw [hcut, hnew, splitBytes_append]
  have hlenS : byteLen s = byteLen u + byteLen v := by rw [hs, byteLen_append]
  have hlenT : byteLen t = byteLen u' + byteLen v := by rw [ht, byteLen_append]
  have hendS : splitBytes (byteLen u) s = some (u, v) := by rw [hs, splitBytes_append]
  have hendT : splitBytes (byteLen u') t = some (u', v) := by rw [ht, splitBytes_append]
  rw [MoveLabel.ofPaths, bytesUpTo, if_pos (sharedLength_le _ _).1]
  simp only [Option.bind_eq_bind, Option.bind_some]
  rw [← sharedHead, ← cutOf, hcutOld, Option.bind_some, hcutNew, Option.bind_some]
  dsimp only
  rw [← sharedTail, checkedSub_eq hshared.1, Option.bind_some, bytesSince, length_textBytes,
    if_pos (Nat.sub_le _ _), Option.bind_some]
  have hstops : checkedSub (byteLen s) (byteLen v) = some (byteLen u) ∧
      checkedSub (byteLen t) (byteLen v) = some (byteLen u') := by
    rw [checkedSub_eq (by omega), checkedSub_eq (by omega), hlenS, hlenT, Nat.add_sub_cancel,
      Nat.add_sub_cancel]
    exact ⟨rfl, rfl⟩
  rw [keepOf] at hkeep
  cases hpos : ((textBytes s).drop (byteLen s - sharedTail s t)).findIdx? (· == 47) with
  | none =>
    rw [hpos] at hkeep
    dsimp only at hkeep ⊢
    rw [hkeep, hstops.1, Option.bind_some, hendS, Option.bind_some, hstops.2, Option.bind_some,
      hendT, Option.bind_some]
  | some i =>
    rw [hpos] at hkeep
    dsimp only at hkeep ⊢
    rw [checkedSub_eq (hbound i hpos), Option.bind_some, hkeep, hstops.1, Option.bind_some, hendS,
      Option.bind_some, hstops.2, Option.bind_some, hendT, Option.bind_some]

/-- **A move label is lossless.** It is made without a panic, its parts put together are the two
paths, and every folder that both begin with is in its prefix. -/
theorem ofPaths_lossless (old new : List Char) : ∃ l, MoveLabel.ofPaths old new = some l ∧
    l.pathPrefix ++ l.old ++ l.suffix = old ∧ l.pathPrefix ++ l.new ++ l.suffix = new ∧
      (l.pathPrefix = [] ∨ l.pathPrefix.getLast? = some '/') ∧
      (l.suffix = [] ∨ l.suffix.head? = some '/') ∧
      ∀ p, p <+: old → p <+: new → p.getLast? = some '/' → p <+: l.pathPrefix := by
  obtain ⟨p, s, t, hold, hnew, hcut, hp, hmax⟩ := cutOf_spec old new
  obtain ⟨u, u', v, hs, ht, hkeep, hv, hbound⟩ := keepOf_spec s t
  refine ⟨⟨p, u, u', v⟩, ofPaths_eq hold hnew hcut hs ht hkeep hbound, ?_, ?_, hp, hv, hmax⟩
  · rw [List.append_assoc, ← hs, hold]
  · rw [List.append_assoc, ← ht, hnew]

/-- The label of a moved file is always made. -/
theorem moveLabel_isSome (f : FileChange) : f.moveLabel.isSome = true := by
  rw [FileChange.moveLabel]
  split
  · rename_i old new _ _
    obtain ⟨p, s, t, hold, hnew, hcut, -⟩ := cutOf_spec old.display.toList new.display.toList
    obtain ⟨u, u', v, hs, ht, hkeep, -, hbound⟩ := keepOf_spec s t
    rw [ofPaths_eq hold hnew hcut hs ht hkeep hbound]
    split
    · rfl
    · rfl
  · rfl

end MoveLabels
end Proof
end Diffz
