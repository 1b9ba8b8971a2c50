import Diffz.Lib.Dialogue

/-!
# A server that changes

A server changes while a program talks to it. Moments are counted by the requests that the server
gets, and `answers k` is the server as it is when it gets request `k`. Programs that run at once take
turns, in any order. `Between` says what a program can end in whose requests all come in a stretch of
time, whoever else asks in that time.
-/

set_option autoImplicit false

namespace Diffz
namespace Dialogue

variable {Req Resp α β ε : Type}

/-- The end of a dialogue that begins at a moment, and the moment after it. -/
def answered (answers : Nat → Req → Resp) : Nat → Dialogue Req Resp α → α × Nat
  | n, .done a => (a, n)
  | n, .ask r next => answered answers (n + 1) (next (answers n r))

/-- Two dialogues at once. `order` says whose turn it is; the turn of one that has ended is nobody's,
and after the last turn the first goes on to its end, and then the second. -/
def turns : List Bool → Dialogue Req Resp α → Dialogue Req Resp β → Dialogue Req Resp (α × β)
  | true :: order, .ask r next, q => .ask r fun answer => turns order (next answer) q
  | false :: order, p, .ask r next => .ask r fun answer => turns order p (next answer)
  | true :: order, .done a, q => turns order (.done a) q
  | false :: order, p, .done b => turns order p (.done b)
  | [], p, q => p.bind fun a => q.bind fun b => .done (a, b)

/-- The dialogue can end in `a`, its requests coming from the moment `m` on and before the moment
`n`. -/
inductive Between (answers : Nat → Req → Resp) : Nat → Nat → Dialogue Req Resp α → α → Prop
  | done {m n : Nat} {a : α} (h : m ≤ n) : Between answers m n (.done a) a
  | ask {m n k : Nat} {r : Req} {next : Resp → Dialogue Req Resp α} {a : α} (hm : m ≤ k)
      (h : Between answers (k + 1) n (next (answers k r)) a) : Between answers m n (.ask r next) a

variable {answers : Nat → Req → Resp} {m n k l : Nat} {a : α} {b : β}

namespace Between

theorem le {d : Dialogue Req Resp α} (h : Between answers m n d a) : m ≤ n := by
  induction h with
  | done h => exact h
  | ask hm _ ih => omega

theorem mono {d : Dialogue Req Resp α} (h : Between answers m n d a) (hk : k ≤ m) (hl : n ≤ l) :
    Between answers k l d a := by
  induction h generalizing k with
  | done h => exact .done (by omega)
  | ask hm _ ih => exact .ask (Nat.le_trans hk hm) (ih (Nat.le_refl _) hl)

theorem of_answered (d : Dialogue Req Resp α) (answers : Nat → Req → Resp) (m : Nat) :
    Between answers m (d.answered answers m).2 d (d.answered answers m).1 := by
  induction d generalizing m with
  | done a => exact .done (Nat.le_refl _)
  | ask r next ih => exact .ask (Nat.le_refl _) (ih _ _)

theorem of_done {a' : α} (h : Between answers m n (.done a : Dialogue Req Resp α) a') :
    a = a' ∧ m ≤ n := by
  cases h with
  | done h => exact ⟨rfl, h⟩

/-- One request. -/
theorem of_ask {r : Req} {resp : Resp} (h : Between answers m n (.ask r .done) resp) :
    ∃ k, m ≤ k ∧ k < n ∧ resp = answers k r := by
  cases h with
  | @ask _ _ k _ _ _ hm h =>
    have hk := h.le
    cases h
    exact ⟨k, hm, hk, rfl⟩

/-- One program after the other. -/
theorem of_bind {d : Dialogue Req Resp α} {f : α → Dialogue Req Resp β}
    (h : Between answers m n (d.bind f) b) :
    ∃ a k, Between answers m k d a ∧ Between answers k n (f a) b := by
  induction d generalizing m with
  | done a => exact ⟨a, m, .done (Nat.le_refl _), h⟩
  | ask r next ih =>
    cases h with
    | ask hm h =>
      obtain ⟨a, k, hfirst, hsecond⟩ := ih _ h
      exact ⟨a, k, .ask hm hfirst, hsecond⟩

/-- Both at once, in whatever order. -/
theorem of_turns {order : List Bool} {p : Dialogue Req Resp α} {q : Dialogue Req Resp β}
    (h : Between answers m n (turns order p q) (a, b)) :
    Between answers m n p a ∧ Between answers m n q b := by
  induction order, p, q using turns.induct generalizing m with
  | case1 order r next q ih =>
    cases h with
    | ask hm h =>
      obtain ⟨hp, hq⟩ := ih _ h
      exact ⟨.ask hm hp, hq.mono (by omega) (Nat.le_refl _)⟩
  | case2 order p r next ih =>
    rw [turns] at h
    cases h with
    | ask hm h =>
      obtain ⟨hp, hq⟩ := ih _ h
      exact ⟨hp.mono (by omega) (Nat.le_refl _), .ask hm hq⟩
  | case3 order a q ih => exact ih h
  | case4 order p b ih =>
    rw [turns] at h
    exact ih h
  | case5 p q =>
    rw [turns] at h
    obtain ⟨a', k, hp, h⟩ := of_bind h
    obtain ⟨b', l, hq, h⟩ := of_bind h
    have hl := h.le
    cases h
    exact ⟨hp.mono (Nat.le_refl _) (Nat.le_trans hq.le hl), hq.mono hp.le hl⟩

/-! ## Programs that fail -/

variable {x : ExceptT ε (Dialogue Req Resp) α} {f : α → ExceptT ε (Dialogue Req Resp) β}

theorem of_except_bind (h : Between answers m n (x >>= f).run (.ok b)) :
    ∃ a k, Between answers m k x.run (.ok a) ∧ Between answers k n (f a).run (.ok b) := by
  obtain ⟨r, k, hx, hf⟩ := of_bind h
  cases r with
  | error e => cases hf
  | ok a => exact ⟨a, k, hx, hf⟩

theorem of_lift {d : Dialogue Req Resp α}
    (h : Between answers m n (ExceptT.lift (ε := ε) d).run (.ok a)) : Between answers m n d a := by
  obtain ⟨a', k, hd, h⟩ := of_bind h
  have hk := h.le
  cases h
  exact hd.mono (Nat.le_refl _) hk

end Between
end Dialogue
end Diffz
