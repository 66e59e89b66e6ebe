import DerivativeLexer.Lexer.Engine
import DerivativeLexer.Lexer.Status

/-! # Sessions on growing input

A network is a lexer at work: input sources that grow, sessions that read them and write an
output each, and listeners on both. A session is told whenever its input grows or is closed and
then drains it: its engine moves until it rests or stops. Listeners and actions may push, close
and cancel in turn. What they ask for is carried out at once, in the middle of the drain, except
that a session that is busy draining does not start a second drain; its running drain looks at
the input and at the cancellation again before every move.

The order of all this is kept on an agenda. The first task on it is done next, and the tasks that
it causes go in front of the rest. -/

namespace DerivativeLexer

inductive Request where
  | source (r : SourceRequest Char)
  | cancel (session : Nat)
deriving DecidableEq

/-- A listener makes its requests the first `budget` times that a notification triggers it. -/
structure Reaction (α : Type) where
  trigger : List α → Bool
  budget : Nat
  requests : List Request

def Reaction.hear {α : Type} (r : Reaction α) (items : List α) : List Request × Reaction α :=
  if r.trigger items && 0 < r.budget then (r.requests, { r with budget := r.budget - 1 })
  else ([], r)

/-- Who is told about an input source. -/
inductive Subscriber where
  | session (x : Nat)
  | listener (reaction : Reaction Char)

/-- An input source with its subscribers in the order in which they were added. -/
structure Input where
  source : Source Char
  subscribers : List Subscriber

structure Session (τ π : Type) where
  input : Nat
  engine : Engine π
  reader : Reader Char
  output : Source τ
  listeners : List (Reaction τ)
  /-- The error of the session, if it has one, is a part of this. -/
  status : SessionStatus
  cancelled : Bool
  /-- A drain of the session is under way. -/
  busy : Bool

/-- What a listener on the output of a session was told, and the status of the session then. -/
structure OutputNotice (τ : Type) where
  session : Nat
  items : List τ
  status : SessionStatus
deriving DecidableEq

inductive Task (τ : Type) where
  | request (r : Request)
  | tellInput (input subscriber : Nat) (text : List Char)
  | tellOutput (session listener : Nat) (items : List τ)
  | emit (session : Nat) (item : τ)
  | close (session : Nat)
  /-- The next move of a session. -/
  | drain (session : Nat)
  /-- The action of a session is over. -/
  | proceed (session : Nat) (replays : Bool)
  | finish (session : Nat) (status : SessionStatus)
  /-- The drain of a session is over. -/
  | release (session : Nat)
deriving DecidableEq

structure Network (τ π : Type) where
  lexer : Lexer τ π
  inputs : Array Input
  /-- A session that was dropped, or that never started, leaves its place empty. -/
  sessions : Array (Option (Session τ π))
  notices : Array (OutputNotice τ)
  agenda : List (Task τ)

namespace Session

variable {τ π : Type}

def items (s : Session τ π) : List τ := s.output.queue

def inspect (s : Session τ π) : String :=
  "LexSession \x7b status: " ++ s.status.label ++ ", output: Stream \x7b offset: 0, plugged: " ++
    toString s.output.queue.isEmpty ++ ", terminated: " ++ toString s.output.closed ++ " \x7d \x7d"

end Session

namespace Network

variable {τ π : Type}

def fresh (l : Lexer τ π) : Network τ π := ⟨l, #[], #[], #[], []⟩

def source? (n : Network τ π) (s : Nat) : Option (Source Char) := n.inputs[s]?.map (·.source)

def session? (n : Network τ π) (x : Nat) : Option (Session τ π) := n.sessions[x]?.join

def modifySource (n : Network τ π) (s : Nat) (f : Source Char → Source Char) : Network τ π :=
  { n with inputs := n.inputs.modify s fun i => { i with source := f i.source } }

def modifySession (n : Network τ π) (x : Nat) (f : Session τ π → Session τ π) : Network τ π :=
  { n with sessions := n.sessions.modify x (Option.map f) }

def schedule (n : Network τ π) (tasks : List (Task τ)) : Network τ π :=
  { n with agenda := tasks ++ n.agenda }

/-! ### Notifications -/

def inputTellings (n : Network τ π) (s : Nat) (text : List Char) : List (Task τ) :=
  match n.inputs[s]? with
  | some i => (List.range i.subscribers.length).map fun k => .tellInput s k text
  | none => []

def outputTellings (n : Network τ π) (x : Nat) (items : List τ) : List (Task τ) :=
  match n.session? x with
  | some s => (List.range s.listeners.length).map fun k => .tellOutput x k items
  | none => []

def wake (n : Network τ π) (x : Nat) : Network τ π :=
  match n.session? x with
  | none => n
  | some s =>
    if s.busy || !s.status.isLive then n
    else (n.modifySession x fun s => { s with busy := true }).schedule [.drain x]

def grant (n : Network τ π) : Request → Network τ π
  | .source (.push s text) =>
    match n.source? s with
    | none => n
    | some source =>
      if source.closed then n
      else (n.modifySource s (·.push text)).schedule (n.inputTellings s text)
  | .source (.close s) => (n.modifySource s (·.close)).schedule (n.inputTellings s [])
  | .cancel x => (n.modifySession x fun s => { s with cancelled := true }).wake x

def tellInput (n : Network τ π) (s k : Nat) (text : List Char) : Network τ π :=
  match n.inputs[s]?.bind (·.subscribers[k]?) with
  | none => n
  | some (.session x) => n.wake x
  | some (.listener r) =>
    let (requests, after) := r.hear text
    { n with
      inputs := n.inputs.modify s fun i =>
        { i with subscribers := i.subscribers.set k (.listener after) } }.schedule
      (requests.map .request)

def tellOutput (n : Network τ π) (x k : Nat) (items : List τ) : Network τ π :=
  match n.session? x with
  | none => n
  | some s =>
    match s.listeners[k]? with
    | none => n
    | some r =>
      let (requests, after) := r.hear items
      let n := { n with notices := n.notices.push ⟨x, items, s.status⟩ }
      (n.modifySession x fun s => { s with listeners := s.listeners.set k after }).schedule
        (requests.map .request)

/-! ### Output -/

def emit (n : Network τ π) (x : Nat) (item : τ) : Network τ π :=
  match n.session? x with
  | none => n
  | some s =>
    if s.output.closed then n
    else
      (n.modifySession x fun s => { s with output := s.output.push [item] }).schedule
        (n.outputTellings x [item])

def close (n : Network τ π) (x : Nat) : Network τ π :=
  (n.modifySession x fun s => { s with output := s.output.close }).schedule
    (n.outputTellings x [])

def effectTask (x : Nat) : Effect τ → Task τ
  | .emit item => .emit x item
  | .close => .close x
  | .request r => .request (.source r)

/-! ### Moves of a session -/

/-- The next move of a session, unless it has stopped or was cancelled. -/
def drain (n : Network τ π) (x : Nat) : Network τ π :=
  match n.session? x with
  | none => n
  | some s =>
    if !s.status.isLive then n.schedule [.release x]
    else if s.cancelled then n.schedule [.finish x .cancelled]
    else
      let source := (n.source? s.input).getD .fresh
      match s.engine.move n.lexer.rules n.lexer.config ⟨source, s.reader⟩ with
      | .rest => n.schedule [.release x]
      | .read engine feed =>
        let n := n.modifySource s.input fun _ => feed.source
        (n.modifySession x fun s =>
          { s with
            engine := engine
            reader := feed.reader
            status := s.status.afterRead engine.replaying }).schedule [.drain x]
      | .fire firing engine replays =>
        (n.modifySession x fun s => { s with engine := engine }).schedule
          (firing.effects.map (effectTask x) ++ [.proceed x replays])
      | .last firing engine =>
        (n.modifySession x fun s => { s with engine := engine }).schedule
          (firing.effects.map (effectTask x) ++ [.finish x .terminated])
      | .fail error feed =>
        let n := n.modifySource s.input fun _ => feed.source
        (n.modifySession x fun s => { s with reader := feed.reader }).schedule
          [.finish x (.failed error)]

def proceed (n : Network τ π) (x : Nat) (replays : Bool) : Network τ π :=
  (n.modifySession x fun s => { s with status := s.status.afterFire replays }).schedule [.drain x]

/-- Sets the final status; the output is closed unless it is already. -/
def finish (n : Network τ π) (x : Nat) (status : SessionStatus) : Network τ π :=
  match n.session? x with
  | none => n
  | some s =>
    (n.modifySession x fun s =>
      { s with status := status, engine := { s.engine with bookmark := none } }).schedule
      (if s.output.closed then [.release x] else [.close x, .release x])

def release (n : Network τ π) (x : Nat) : Network τ π :=
  n.modifySession x fun s => { s with busy := false }

def perform (n : Network τ π) : Task τ → Network τ π
  | .request r => n.grant r
  | .tellInput s k text => n.tellInput s k text
  | .tellOutput x k items => n.tellOutput x k items
  | .emit x item => n.emit x item
  | .close x => n.close x
  | .drain x => n.drain x
  | .proceed x replays => n.proceed x replays
  | .finish x status => n.finish x status
  | .release x => n.release x

def step (n : Network τ π) : Network τ π :=
  match n.agenda with
  | [] => n
  | task :: rest => { n with agenda := rest }.perform task

/-- Does tasks until none is left. Actions can feed their own input for ever, so the number of
tasks has no bound but `fuel`. -/
def settle (n : Network τ π) : Nat → Network τ π
  | 0 => n
  | fuel + 1 => if n.agenda.isEmpty then n else n.step.settle fuel

/-! ### Operations -/

def addSource (n : Network τ π) (s : Source Char) : Nat × Network τ π :=
  (n.inputs.size, { n with inputs := n.inputs.push ⟨s, []⟩ })

def ask (n : Network τ π) (r : Request) (fuel : Nat) : Network τ π :=
  (n.schedule [.request r]).settle fuel

def subscribe (n : Network τ π) (s : Nat) (u : Subscriber) : Network τ π :=
  { n with inputs := n.inputs.modify s fun i => { i with subscribers := i.subscribers ++ [u] } }

def listen (n : Network τ π) (x : Nat) (r : Reaction τ) : Network τ π :=
  n.modifySession x fun s => { s with listeners := s.listeners ++ [r] }

def drop (n : Network τ π) (x : Nat) : Network τ π :=
  { n with sessions := n.sessions.modify x fun _ => none }

inductive Opening where
  | opened (session : Nat)
  /-- The session failed on the input that was there; its place stays empty. -/
  | refused (session : Nat) (error : LexError)
  /-- There is less input than was to be skipped. -/
  | plugged (read : PluggedRead)

/-- Passes over characters; a failed pass tells where the input was plugged. -/
def skipFrom (f : Feed Char) (offset : Nat) : Nat → Except Nat Nat × Feed Char
  | 0 => (.ok offset, f)
  | k + 1 =>
    match f.head? offset with
    | some (_, next) => skipFrom next (offset + 1) k
    | none => (.error offset, f)

def launch (n : Network τ π) (s offset : Nat) (reader : Reader Char) : Network τ π :=
  { n with
    sessions := n.sessions.push <| some
      { input := s
        engine := .start n.lexer.rules offset
        reader := reader
        output := .fresh
        listeners := []
        status := .stepping
        cancelled := false
        busy := true } }.schedule [.drain n.sessions.size]

/-- Adds a session on what an input source hands out next, behind the first `skip` characters, and
drains what is there by now before anybody else is told. The answer is the session, or the offset
where there was nothing to pass over. -/
def start (n : Network τ π) (s skip fuel : Nat) : Except Nat Nat × Network τ π :=
  let source := (n.source? s).getD .fresh
  let (passed, feed) := skipFrom ⟨source, .of source⟩ source.pulled skip
  let n := n.modifySource s fun _ => feed.source
  match passed with
  | .error offset => (.error offset, n)
  | .ok offset => (.ok n.sessions.size, (n.launch s offset feed.reader).settle fuel)

/-- After the first drain of a session: if that failed, there is no session. Otherwise the session
is told from now on whenever its source grows or is closed. -/
def enroll (n : Network τ π) (s x : Nat) : Opening × Network τ π :=
  match (n.session? x).bind fun s => s.status.error? with
  | some e => (.refused x e, n.drop x)
  | none => (.opened x, n.subscribe s (.session x))

def openSession (n : Network τ π) (s skip fuel : Nat) : Opening × Network τ π :=
  match n.start s skip fuel with
  | (.error offset, n) => (.plugged (.tail offset), n)
  | (.ok x, n) => n.enroll s x

def takeNotices (n : Network τ π) : List (OutputNotice τ) × Network τ π :=
  (n.notices.toList, { n with notices := #[] })

end Network

end DerivativeLexer
