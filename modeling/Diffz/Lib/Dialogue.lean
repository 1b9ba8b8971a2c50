/-!
# Dialogues with a server

A program that talks to a server asks, goes on with the answer and ends in a result. A `Dialogue` is
the tree of all the ways this can go. A server is a function of everything it was asked so far, so
it may keep a state, and `requests` are what a given server is asked.
-/

set_option autoImplicit false

namespace Diffz

inductive Dialogue (Req Resp α : Type) where
  | done (result : α)
  | ask (request : Req) (next : Resp → Dialogue Req Resp α)

namespace Dialogue

variable {Req Resp α β : Type}

def bind : Dialogue Req Resp α → (α → Dialogue Req Resp β) → Dialogue Req Resp β
  | .done a, f => f a
  | .ask r next, f => .ask r fun answer => (next answer).bind f

instance : Monad (Dialogue Req Resp) where
  pure := .done
  bind := bind

/-- The requests of a dialogue, after those the server has had before. -/
def requestsFrom (server : List Req → Resp) : List Req → Dialogue Req Resp α → List Req
  | _, .done _ => []
  | asked, .ask r next =>
    r :: requestsFrom server (asked ++ [r]) (next (server (asked ++ [r])))

/-- The requests of a dialogue with a server that is asked nothing else. -/
def requests (server : List Req → Resp) (d : Dialogue Req Resp α) : List Req :=
  requestsFrom server [] d

end Dialogue
end Diffz
