import Mathlib.Logic.Function.Basic
import Diffz.Core.Snapshot
import Diffz.Lib.JsonRead
import Diffz.Lib.Lts

/-!
# Handing requests to a running window (`crates/adapters/src/handoff.rs`)

One state directory has a writer lock, which the window running on it holds, a socket beside it on
which the window takes requests, and a launch lock, on which invocations that find no window take
turns. The locks and the socket are `Files`. A process is a call of `send`, `deliver` or
`open_or_hand_off`, the last followed by the life of the window it opens; it is cut at every system
call, since any other process may run between two of them. `move` is what a process does at its
position, with the answer of the system.

A probe of the lock (`in_use`) takes it for an instant, which is two steps. A process that exits
loses its locks and leaves its socket file behind.
-/

set_option autoImplicit false

namespace Diffz
namespace Handoff

/-! ## Frames -/

/-- `OpenRequest`; a path is bytes. -/
inductive OpenRequest
  | fixture (id : String)
  | patch (path : Bytes)
  | remote (provider : ProviderId) (address : String)
  | localGit (root : Bytes) (base head : String)
  | localIndex (root : Bytes)
  | localWorktree (root : Bytes)
  | resume (id : SnapshotId)
deriving DecidableEq, Repr

/-- The serialised request; there is none when a path is not UTF-8. -/
def OpenRequest.toJson : OpenRequest → Option Json
  | .fixture id => some (.obj [("Fixture", .str id)])
  | .patch path => (fromUtf8 path).map fun path => .obj [("Patch", .str path)]
  | .remote provider address =>
    some (.obj [("Remote", .obj [("provider", .str provider.val), ("address", .str address)])])
  | .localGit root base head => (fromUtf8 root).map fun root =>
    .obj [("LocalGit", .obj [("root", .str root), ("base", .str base), ("head", .str head)])]
  | .localIndex root => (fromUtf8 root).map fun root => .obj [("LocalIndex", .str root)]
  | .localWorktree root => (fromUtf8 root).map fun root => .obj [("LocalWorktree", .str root)]
  | .resume id => some (.obj [("Resume", .str id.val)])

/-- The write permissions a window started with. -/
structure Writes where
  github : Bool
  gitlab : Bool
deriving DecidableEq, Repr

/-- `request` is `none` when the invocation named no source. -/
structure Message where
  version : Nat
  request : Option OpenRequest
  writes : Writes
  activationToken : Option String
deriving DecidableEq, Repr

def version : Nat := 1
def limit : Nat := 65536
def activationTokenLimit : Nat := 4096

def admitActivationToken (token : String) : Option String :=
  if token ≠ "" ∧ (asBytes token).length ≤ activationTokenLimit ∧ '\x00' ∉ token.toList then
    some token
  else none

/-- `serde_json::to_vec(&message)` with the newline that ends the frame. -/
def Message.encode (m : Message) : Except String Bytes :=
  let request := match m.request with
    | none => some Json.null
    | some r => r.toJson
  match request with
  | none => .error "could not encode handoff request"
  | some request =>
    .ok (Json.toVec (.obj ([("version", .num m.version), ("request", request),
      ("writes", .obj [("github", .bool m.writes.github), ("gitlab", .bool m.writes.gitlab)])] ++
      skipNone "activation_token" (m.activationToken.map Json.str))) ++ [10])

/-- The message `frame` settles on: the token goes when it makes the frame too long. -/
def fit (m : Message) : Except String Message := do
  let bytes ← m.encode
  if bytes.length ≤ limit then return m
  else match m.activationToken with
    | none => .error "handoff request exceeds the 65536-byte frame limit"
    | some _ =>
      let m := { m with activationToken := none }
      let bytes ← m.encode
      if bytes.length ≤ limit then return m
      else .error "handoff request exceeds the 65536-byte frame limit"

def message (request : Option OpenRequest) (writes : Writes) (token : Option String) : Message :=
  ⟨version, request, writes, token.bind admitActivationToken⟩

def frame (request : Option OpenRequest) (writes : Writes) (token : Option String) :
    Except String Bytes :=
  fit (message request writes token) >>= Message.encode

/-! ## Reading a frame -/

/-- An externally tagged enumeration: an object of one field, which names the variant. -/
def OpenRequest.fromJson : Json → Option OpenRequest
  | .obj [("Fixture", v)] => v.asStr.map .fixture
  | .obj [("Patch", v)] => v.asStr.map fun path => .patch (asBytes path)
  | .obj [("Remote", v)] => do
    let provider ← v.required "provider" Json.asStr
    let address ← v.required "address" Json.asStr
    return .remote ⟨provider⟩ address
  | .obj [("LocalGit", v)] => do
    let root ← v.required "root" Json.asStr
    let base ← v.required "base" Json.asStr
    let head ← v.required "head" Json.asStr
    return .localGit (asBytes root) base head
  | .obj [("LocalIndex", v)] => v.asStr.map fun root => .localIndex (asBytes root)
  | .obj [("LocalWorktree", v)] => v.asStr.map fun root => .localWorktree (asBytes root)
  | .obj [("Resume", v)] => v.asStr.map fun id => .resume ⟨id⟩
  | _ => none

def Writes.toJson (w : Writes) : Json := .obj [("github", .bool w.github), ("gitlab", .bool w.gitlab)]

def Writes.fromJson (j : Json) : Option Writes := do
  let github ← j.required "github" Json.asBool
  let gitlab ← j.required "gitlab" Json.asBool
  return ⟨github, gitlab⟩

/-- `deserialize_with`: any value is read, and only an admitted text is kept. -/
def optionalActivationToken : Json → Option (Option String)
  | .str token => some (admitActivationToken token)
  | _ => some none

def Message.fromJson (j : Json) : Option Message := do
  let version ← j.required "version" (Json.asUint 32)
  let request ← j.optional "request" OpenRequest.fromJson
  let writes ← j.orDefault "writes" Writes.fromJson ⟨false, false⟩
  let activationToken ← j.orDefault "activation_token" optionalActivationToken none
  return ⟨version, request, writes, activationToken⟩

/-- `serde_json::from_str::<Message>`. -/
def Message.fromStr (parse : Bytes → Option Json) (line : String) : Option Message :=
  (parse (asBytes line)).bind Message.fromJson

/-- `serde_json::from_str::<Header>`. -/
def headerVersion (parse : Bytes → Option Json) (line : String) : Option Nat :=
  (parse (asBytes line)).bind fun j => j.required "version" (Json.asUint 32)

/-- `BufRead::read_until`: up to the first newline and with it, or to the end. -/
def untilNewline (stream : Bytes) : Bytes :=
  stream.takeWhile (· ≠ 10) ++ (stream.dropWhile (· ≠ 10)).take 1

def readLine (stream : Bytes) : Except String String :=
  match fromUtf8 (untilNewline (stream.take limit)) with
  | none => .error "stream did not contain valid UTF-8"
  | some line =>
    if line.toList.getLast? = some '\n' then .ok line
    else .error "incomplete or oversized handoff frame"

def missingWriteFlag (asked granted : Writes) : Option String :=
  if asked.github ∧ ¬ granted.github then some "--allow-github-writes"
  else if asked.gitlab ∧ ¬ granted.gitlab then some "--allow-gitlab-writes"
  else none

/-- `unreadable`: the line and the column are those of the error. -/
def unreadable (place : Nat × Nat) : String :=
  s!"the running diffz could not read the request at line {place.1} column {place.2}"

/-- What `accept` takes from one connection, or the error it answers with. `place` is where
`serde_json` finds a line unreadable. -/
def accept (parse : Bytes → Option Json) (place : String → Nat × Nat) (granted : Writes)
    (stream : Bytes) : Except String (Option OpenRequest × Option String) :=
  let line := match readLine stream with
    | .ok line => line
    | .error _ => ""
  match headerVersion parse line with
  | none => .error (unreadable (place line))
  | some v =>
    if v ≠ version then
      .error s!"the running diffz reads handoff version {version}, not {v}; restart it"
    else match Message.fromStr parse line with
      | none => .error (unreadable (place line))
      | some m =>
        match missingWriteFlag m.writes granted with
        | some flag => .error (s!"the running diffz was started without {flag}; close it, then " ++
            "run diffz again with the flag")
        | none => .ok (m.request, m.activationToken)

/-! ## Positions -/

inductive Outcome
  /-- No instance holds the lock; any socket left behind has been removed. -/
  | notRunning
  | accepted
  | refused (message : String)
  | unanswered
deriving DecidableEq, Repr

/-- Where `send_within` stands. `long` is the branch for a path no socket address can hold. -/
inductive SendAt
  | connect
  /-- `in_use`: opens the lock file and tries to lock it -/
  | probe (long : Bool)
  /-- `in_use`: has the lock and lets it go -/
  | release (long : Bool)
  /-- removes the socket that was left behind -/
  | unlink
  /-- looks at the deadline and sleeps -/
  | wait
  /-- is connected; `exchange` makes the frame and writes it -/
  | exchange
  | ack
deriving DecidableEq, Repr

/-- Where `settle` stands while it waits for a window that is closing. -/
inductive SettleAt
  | probe
  | release
  | wait
deriving DecidableEq, Repr

inductive Ended
  | sent (o : Outcome)
  | handedOff
  | launched
  | error (message : String)
  | closed
deriving DecidableEq, Repr

inductive At
  /-- a call of `send` -/
  | calling (s : SendAt)
  /-- `deliver` sends, for the second time once it has the launch lock -/
  | sending (locked : Bool) (s : SendAt)
  | settling (locked : Bool) (s : SettleAt)
  | launchLock
  | launch
  /-- `deliver` waits for the new window to take requests -/
  | listen
  /-- `open_or_hand_off` opens the store, for the second time when `again` -/
  | opening (again : Bool)
  /-- `Store::open` has the lock and opens the database -/
  | opened (again : Bool)
  /-- `open_or_hand_off` sends, and keeps the error of `open` -/
  | handingOff (error : String) (s : SendAt)
  /-- `Listener::bind` removes the socket that is there -/
  | clearing
  | binding
  /-- the socket is bound; its permissions are set -/
  | permitting
  /-- a window with its lock and its listener -/
  | live
  /-- a window with its lock and without a listener -/
  | silent
  /-- a window that has let go of its lock and still has its listener -/
  | leaving
  | done (r : Ended)
deriving DecidableEq, Repr

structure Proc where
  request : Option OpenRequest
  writes : Writes
  token : Option String
  pos : At
deriving DecidableEq, Repr

/-- The state directory. `lockFile` is whether the file of the writer lock exists; a socket is known
by the process that bound it. -/
structure Files where
  lockFile : Bool
  writer : Option Nat
  launch : Option Nat
  socket : Option Nat
deriving DecidableEq, Repr

/-- What comes back from a system call. -/
inductive Answer
  | ok
  | failed (message : String)
  /-- the deadline of a wait has passed -/
  | late
  | outcome (o : Outcome)
  /-- `launch` has started process `j` -/
  | launched (j : Nat)
  /-- the window drops its listener, which removes the socket file -/
  | dropListener
  /-- the window drops its store, which unlocks -/
  | unlock
deriving DecidableEq, Repr

/-- How a step of `send_within` goes on. -/
inductive SendNext
  | goto (s : SendAt)
  | returns (o : Outcome)
  | fails (message : String)
deriving DecidableEq, Repr

/-- What a step of `send_within` does: the files, the token that is left, the frame handed to the
writer. -/
structure SendTurn where
  files : Files
  token : Option String
  framed : Option Message
  next : SendNext
deriving DecidableEq, Repr

/-- `connect` to the socket path: too long for an address, a listener behind it, or neither. -/
inductive Reach
  | unusable
  | listener
  | missing
deriving DecidableEq, Repr

/-- One step of `send_within`, for process `i`. -/
def sendMove (reach : Reach) (f : Files) (i : Nat) (p : Proc) : SendAt → Answer → Option SendTurn
  | .connect, .ok =>
    match reach with
    | .unusable => some ⟨f, p.token, none, .goto (.probe true)⟩
    | .listener => some ⟨f, p.token, none, .goto .exchange⟩
    | .missing => some ⟨f, p.token, none, .goto (.probe false)⟩
  | .probe long, .ok =>
    if ¬ f.lockFile then
      some ⟨f, p.token, none, if long then .returns .notRunning else .goto .unlink⟩
    else match f.writer with
      | none => some ⟨{ f with writer := some i }, p.token, none, .goto (.release long)⟩
      | some _ =>
        if long then some ⟨f, p.token, none, .fails ("another diffz instance is using this state " ++
          "directory, whose path is too long to take requests")⟩
        else some ⟨f, p.token, none, .goto .wait⟩
  | .release long, .ok =>
    some ⟨{ f with writer := none }, p.token, none,
      if long then .returns .notRunning else .goto .unlink⟩
  -- The lock goes with the file in any case.
  | .release _, .failed m => some ⟨{ f with writer := none }, p.token, none, .fails m⟩
  | .unlink, .ok => some ⟨{ f with socket := none }, p.token, none, .returns .notRunning⟩
  | .wait, .ok => some ⟨f, p.token, none, .goto .connect⟩
  | .wait, .late => some ⟨f, p.token, none, .fails ("another diffz instance is using this state " ++
      "directory but is not taking requests")⟩
  | .exchange, .ok =>
    -- Consumed before the frame is made and before the first write.
    match fit (message p.request p.writes p.token) with
    | .error m => some ⟨f, none, none, .fails m⟩
    | .ok m => some ⟨f, none, some m, .goto .ack⟩
  | .ack, .outcome .notRunning => none
  | .ack, .outcome o => some ⟨f, p.token, none, .returns o⟩
  | .wait, .failed _ => none
  | _, .failed m => some ⟨f, p.token, none, .fails m⟩
  | _, _ => none

/-! ## A step of a process -/

/-- What a step of a process does. -/
structure Turn where
  files : Files
  proc : Proc
  framed : Option Message
  /-- `launch` was called: with this token, starting this process unless it failed -/
  launched : Option (Option String × Option Nat)
deriving DecidableEq, Repr

/-- The process goes on at a position. -/
def Turn.goto (f : Files) (p : Proc) (pos : At) : Turn := ⟨f, { p with pos }, none, none⟩

/-- `deliver` ends and its launch lock goes with it. -/
def Turn.leave (f : Files) (p : Proc) (locked : Bool) (r : Ended) : Turn :=
  .goto (if locked then { f with launch := none } else f) p (.done r)

/-- What `deliver` does where `settle` finds no window running. -/
def unsettled (locked : Bool) : At := if locked then .launch else .launchLock

/-- A step of `send_within` in its caller. -/
def Turn.ofSend (p : Proc) (t : SendTurn) (here : SendAt → At)
    (returns : Files → Proc → Outcome → Turn) (fails : Files → Proc → String → Turn) : Turn :=
  let p := { p with token := t.token }
  let turn : Turn := match t.next with
    | .goto s => .goto t.files p (here s)
    | .returns o => returns t.files p o
    | .fails m => fails t.files p m
  { turn with framed := t.framed }

/-- `settle`. -/
def settled (locked : Bool) (f : Files) (p : Proc) : Outcome → Turn
  | .accepted => .leave f p locked .handedOff
  | .refused m => .leave f p locked (.error m)
  | .notRunning => .goto f p (unsettled locked)
  | .unanswered => .goto f p (.settling locked .probe)

/-- What `open_or_hand_off` does with the outcome of its `send`. -/
def handedOff (error : String) (f : Files) (p : Proc) : Outcome → Turn
  | .accepted => .goto f p (.done .closed)
  | .refused m => .goto f p (.done (.error m))
  | .notRunning => .goto f p (.opening true)
  | .unanswered => .goto f p (.done (.error error))

/-- `open` has failed. -/
def notOpened (f : Files) (p : Proc) (again : Bool) (m : String) : Turn :=
  .goto f p (if again then .done (.error m) else .handingOff m .connect)

def move (reach : Reach) (f : Files) (i : Nat) (p : Proc) (a : Answer) : Option Turn :=
  match p.pos, a with
  | .calling s, a => (sendMove reach f i p s a).map fun t =>
    .ofSend p t .calling (fun f p o => .goto f p (.done (.sent o)))
      (fun f p m => .goto f p (.done (.error m)))
  | .sending locked s, a => (sendMove reach f i p s a).map fun t =>
    .ofSend p t (.sending locked) (settled locked) (fun f p m => .leave f p locked (.error m))
  | .settling locked .probe, .ok =>
    if ¬ f.lockFile then some (.goto f p (unsettled locked))
    else match f.writer with
      | none => some (.goto { f with writer := some i } p (.settling locked .release))
      | some _ => some (.goto f p (.settling locked .wait))
  | .settling locked .probe, .failed m => some (.leave f p locked (.error m))
  | .settling locked .release, .ok => some (.goto { f with writer := none } p (unsettled locked))
  | .settling locked .release, .failed m =>
    some (.leave { f with writer := none } p locked (.error m))
  | .settling locked .wait, .ok => some (.goto f p (.settling locked .probe))
  | .settling locked .wait, .late =>
    some (.leave f p locked (.error "the running diffz did not answer in time; try again in a moment"))
  | .launchLock, .ok =>
    -- Blocks while another invocation has it.
    match f.launch with
    | none => some (.goto { f with launch := some i } p (.sending true .connect))
    | some _ => none
  | .launchLock, .failed m => some (.goto f p (.done (.error m)))
  | .launch, .launched j =>
    some { Turn.goto f { p with token := none } .listen with launched := some (p.token, some j) }
  | .launch, .failed m =>
    some { Turn.leave f { p with token := none } true (.error m) with
      launched := some (p.token, none) }
  | .listen, .ok =>
    match reach with
    | .missing => some (.goto f p .listen)
    | _ => some (.leave f p true .launched)
  | .listen, .failed _ => some (.goto f p .listen)
  | .listen, .late =>
    some (.leave f p true (.error "the new diffz window did not start taking requests"))
  | .opening again, .ok =>
    let f := { f with lockFile := true }
    match f.writer with
    | none => some (.goto { f with writer := some i } p (.opened again))
    | some _ => some (notOpened f p again "another diffz instance is using this state directory")
  | .opening again, .failed m => some (notOpened f p again m)
  | .opened _, .ok => some (.goto f p .clearing)
  | .opened again, .failed m => some (notOpened { f with writer := none } p again m)
  | .handingOff error s, a => (sendMove reach f i p s a).map fun t =>
    .ofSend p t (.handingOff error) (handedOff error) (fun f p m => .goto f p (.done (.error m)))
  | .clearing, .ok => some (.goto { f with socket := none } p .binding)
  | .clearing, .failed _ => some (.goto f p .silent)
  | .binding, .ok =>
    -- The address is in use when a file is there, and a long path has none.
    if reach ≠ .unusable ∧ f.socket = none then
      some (.goto { f with socket := some i } p .permitting)
    else some (.goto f p .silent)
  | .binding, .failed _ => some (.goto f p .silent)
  | .permitting, .ok => some (.goto f p .live)
  | .permitting, .failed _ => some (.goto f p .silent)
  | .live, .dropListener => some (.goto { f with socket := none } p .silent)
  | .live, .unlock => some (.goto { f with writer := none } p .leaving)
  | .silent, .unlock => some (.goto { f with writer := none } p (.done .closed))
  | .leaving, .dropListener => some (.goto { f with socket := none } p (.done .closed))
  | _, _ => none

/-! ## The directory and its processes -/

structure World where
  files : Files
  procs : Nat → Option Proc
  /-- the frames handed to a writer, with the call that made each, the last one first -/
  frames : List (Nat × Message)
  /-- the calls of `launch` with the token each was given, the last one first -/
  launches : List (Nat × Option String)

inductive Role
  | send
  | deliver
  | window
deriving DecidableEq, Repr

def Role.start : Role → At
  | .send => .calling .connect
  | .deliver => .sending false .connect
  | .window => .opening false

inductive Event
  | start (i : Nat) (role : Role) (request : Option OpenRequest) (writes : Writes)
      (token : Option String)
  | step (i : Nat) (a : Answer)
  /-- the process ends where it is -/
  | exit (i : Nat)
deriving DecidableEq, Repr

def Event.actor : Event → Nat
  | .start i _ _ _ _ => i
  | .step i _ => i
  | .exit i => i

/-- Whether a process has a listener on the socket it bound. -/
def At.listens : At → Bool
  | .permitting | .live | .leaving => true
  | _ => false

namespace World

def pos (w : World) (i : Nat) : At := ((w.procs i).map Proc.pos).getD (.done .closed)

/-- What a process finds behind the socket path. `usable` is whether the path fits an address. -/
def reach (usable : Bool) (w : World) : Reach :=
  if ¬ usable then .unusable
  else match w.files.socket with
    | none => .missing
    | some j => if (w.pos j).listens then .listener else .missing

def spawn (w : World) (i : Nat) (p : Proc) : World :=
  { w with procs := Function.update w.procs i (some p) }

/-- What a turn of process `i` does to the world. A window that is launched opens what the call that
launched it was to hand over. -/
def perform (w : World) (i : Nat) (t : Turn) : Option World :=
  let w' : World :=
    { files := t.files
      procs := Function.update w.procs i (some t.proc)
      frames := (t.framed.map (Prod.mk i)).toList ++ w.frames
      launches := (t.launched.map fun l => (i, l.1)).toList ++ w.launches }
  match t.launched with
  | some (token, some j) =>
    match w'.procs j with
    | some _ => none
    | none => some (w'.spawn j ⟨t.proc.request, t.proc.writes, token, .opening false⟩)
  | _ => some w'

/-- The locks of a process go with it; its socket file stays. -/
def exited (f : Files) (i : Nat) : Files :=
  { f with
    writer := if f.writer = some i then none else f.writer
    launch := if f.launch = some i then none else f.launch }

def step (usable : Bool) (w : World) : Event → Option World
  | .start i role request writes token =>
    match w.procs i with
    | some _ => none
    | none => some (w.spawn i ⟨request, writes, token, role.start⟩)
  | .step i a =>
    match w.procs i with
    | none => none
    | some p => (move (w.reach usable) w.files i p a).bind (w.perform i)
  | .exit i =>
    match w.procs i with
    | none => none
    | some p => some { w.spawn i { p with pos := .done .closed } with files := exited w.files i }

def system (usable : Bool) : Lts World Event := ⟨step usable⟩

/-- A directory on which nothing runs any more; a window may have left its lock file and its socket
behind. -/
structure Initial (w : World) : Prop where
  ended : ∀ i p, w.procs i = some p → ∃ r, p.pos = .done r
  writer : w.files.writer = none
  launch : w.files.launch = none
  socket : ∀ i, w.files.socket = some i → (w.procs i).isSome
  frames : w.frames = []
  launches : w.launches = []

end World
end Handoff
end Diffz
