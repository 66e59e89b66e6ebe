import DerivativeLexer.Stream.Feed

/-! # Sources with listeners

A hub holds sources, the readers that were attached to them, and listeners. Pushing to an open
source, and closing any source, tells every listener of that source in the order in which they
were added, with the items pushed or with none. A listener may push and close in turn; what it
asks for is carried out at once, before the next listener is told. The hub keeps that order with
an agenda: the first task on it is done next, and the tasks that it causes go in front of the
rest. -/

namespace DerivativeLexer

inductive SourceRequest (α : Type) where
  | push (source : Nat) (items : List α)
  | close (source : Nat)
deriving DecidableEq

/-- A place in what a reader draws. There is one node to each place, so all who stand there share
what is cached. -/
@[ext]
structure Cursor where
  reader : Nat
  offset : Nat
deriving DecidableEq

/-- A listener notes each notification, together with the item at a cursor if it has one to
look at. The first `budget` times it also makes its requests. -/
structure Listener (α : Type) where
  name : String
  budget : Nat
  requests : List (SourceRequest α)
  probe : Option Cursor

structure Notice (α : Type) where
  listener : String
  items : List α
  probed : Option α
deriving DecidableEq

inductive HubTask (α : Type) where
  | request (r : SourceRequest α)
  | tell (listener : Nat) (items : List α)
deriving DecidableEq

structure Outlet (α : Type) where
  source : Source α
  listeners : List Nat

def Outlet.inspect {α : Type} (o : Outlet α) : String :=
  "Source \x7b queued: " ++ toString o.source.queue.length ++ ", terminated: " ++
    toString o.source.closed ++ ", listeners: " ++ toString o.listeners.length ++ " \x7d"

structure Attachment (α : Type) where
  source : Nat
  reader : Reader α

structure Hub (α : Type) where
  outlets : Array (Outlet α)
  readers : Array (Attachment α)
  listeners : Array (Listener α)
  notices : Array (Notice α)
  agenda : List (HubTask α)

inductive PluggedRead where
  | head (offset : Nat)
  | tail (offset : Nat)
deriving DecidableEq

def PluggedRead.message : PluggedRead → String
  | head offset => "can't pull a plugged head at offset " ++ toString offset
  | tail offset => "can't pull a plugged tail at offset " ++ toString offset

namespace Hub

variable {α : Type}

def empty : Hub α := ⟨#[], #[], #[], #[], []⟩

def source? (h : Hub α) (s : Nat) : Option (Source α) := h.outlets[s]?.map (·.source)

def feed? (h : Hub α) (c : Cursor) : Option (Feed α) := do
  let attachment ← h.readers[c.reader]?
  let source ← h.source? attachment.source
  pure ⟨source, attachment.reader⟩

def setFeed (h : Hub α) (c : Cursor) (f : Feed α) : Hub α :=
  match h.readers[c.reader]? with
  | none => h
  | some attachment =>
    { h with
      readers := h.readers.modify c.reader fun a => { a with reader := f.reader }
      outlets := h.outlets.modify attachment.source fun o => { o with source := f.source } }

/-! ### Sources and cursors -/

def addSource (h : Hub α) (s : Source α) : Nat × Hub α :=
  (h.outlets.size, { h with outlets := h.outlets.push ⟨s, []⟩ })

def attach (h : Hub α) (s : Nat) : Option (Cursor × Hub α) := do
  let source ← h.source? s
  pure (⟨h.readers.size, source.pulled⟩, { h with readers := h.readers.push ⟨s, .of source⟩ })

def listen (h : Hub α) (s : Nat) (l : Listener α) : Hub α :=
  { h with
    listeners := h.listeners.push l
    outlets := h.outlets.modify s fun o =>
      { o with listeners := o.listeners ++ [h.listeners.size] } }

/-! ### Reading -/

def isPlugged (h : Hub α) (c : Cursor) : Bool :=
  match h.feed? c with
  | some f => f.plugged c.offset
  | none => true

def isEnded (h : Hub α) (c : Cursor) : Bool :=
  match h.feed? c with
  | some f => f.ended c.offset
  | none => true

def isClosed (h : Hub α) (c : Cursor) : Bool :=
  match h.feed? c with
  | some f => f.source.closed
  | none => true

def inspectCursor (h : Hub α) (c : Cursor) : String :=
  "Stream \x7b offset: " ++ toString c.offset ++ ", plugged: " ++ toString (h.isPlugged c) ++
    ", terminated: " ++ toString (h.isClosed c) ++ " \x7d"

def head? (h : Hub α) (c : Cursor) : Option α × Hub α :=
  match h.feed? c with
  | none => (none, h)
  | some f =>
    match f.head? c.offset with
    | none => (none, h)
    | some (a, next) => (some a, h.setFeed c next)

def head (h : Hub α) (c : Cursor) : Except PluggedRead α × Hub α :=
  match h.head? c with
  | (some a, next) => (.ok a, next)
  | (none, next) => (.error (.head c.offset), next)

def tail (h : Hub α) (c : Cursor) : Except PluggedRead Cursor × Hub α :=
  match h.head? c with
  | (some _, next) => (.ok { c with offset := c.offset + 1 }, next)
  | (none, next) => (.error (.tail c.offset), next)

def take (h : Hub α) (c : Cursor) (n : Nat) : List α × Hub α :=
  match h.feed? c with
  | none => ([], h)
  | some f =>
    let (items, next) := f.take c.offset n
    (items, h.setFeed c next)

def available (h : Hub α) (c : Cursor) : List α × Hub α :=
  match h.feed? c with
  | none => ([], h)
  | some f =>
    let (items, next) := f.available c.offset
    (items, h.setFeed c next)

/-! ### Notifications -/

def tellings (h : Hub α) (s : Nat) (items : List α) : List (HubTask α) :=
  match h.outlets[s]? with
  | some o => o.listeners.map fun l => .tell l items
  | none => []

/-- Carries a request out; what listeners are to be told goes to the front of the agenda. -/
def grant (h : Hub α) : SourceRequest α → Hub α
  | .push s items =>
    match h.source? s with
    | none => h
    | some source =>
      if source.closed then h
      else
        { h with
          outlets := h.outlets.modify s fun o => { o with source := o.source.push items }
          agenda := h.tellings s items ++ h.agenda }
  | .close s =>
    { h with
      outlets := h.outlets.modify s fun o => { o with source := o.source.close }
      agenda := h.tellings s [] ++ h.agenda }

def tell (h : Hub α) (l : Nat) (items : List α) : Hub α :=
  match h.listeners[l]? with
  | none => h
  | some listener =>
    let (probed, h) :=
      match listener.probe with
      | some c => h.head? c
      | none => (none, h)
    let h := { h with notices := h.notices.push ⟨listener.name, items, probed⟩ }
    if listener.budget = 0 then h
    else
      { h with
        listeners := h.listeners.modify l fun x => { x with budget := x.budget - 1 }
        agenda := listener.requests.map .request ++ h.agenda }

def step (h : Hub α) : Hub α :=
  match h.agenda with
  | [] => h
  | .request r :: rest => { h with agenda := rest }.grant r
  | .tell l items :: rest => { h with agenda := rest }.tell l items

/-- A bound on the tasks that a request can cause. Every listener asks for something at most
`budget` times, and every request tells each listener at most once. -/
def taskBound (h : Hub α) : Nat :=
  (h.agenda.length + h.listeners.foldl (fun n l => n + l.budget * l.requests.length) 0) *
    (h.listeners.size + 1)

/-- Does tasks until none is left; `fuel` bounds their number. -/
def settleWith (h : Hub α) : Nat → Hub α
  | 0 => h
  | fuel + 1 => if h.agenda.isEmpty then h else h.step.settleWith fuel

def settle (h : Hub α) : Hub α := h.settleWith h.taskBound

def perform (h : Hub α) (r : SourceRequest α) : Hub α :=
  { h with agenda := .request r :: h.agenda }.settle

def takeNotices (h : Hub α) : List (Notice α) × Hub α :=
  (h.notices.toList, { h with notices := #[] })

end Hub

end DerivativeLexer
