import DerivativeLexer.Lexer.Matching

/-! # The lexing engine

The engine reads one character at a time and remembers the longest match so far. In each move it
looks at the match in progress first: a settled match fires at once, an accepting one is
remembered, and when no rule is left the engine goes back to the match it remembers. At the end
of the input it tries the rules that read the end mark. Otherwise it reads a character, if there
is one; if there is none it rests, and a later move goes on from the same place.

A move is a value: it says what fires and what the engine is afterwards, and whoever runs the
engine carries the effects of the action out. -/

namespace DerivativeLexer

/-- A match to go back to. -/
structure Bookmark where
  matching : Matching
  position : Position
deriving DecidableEq

/-- State of a lexing engine between two moves. -/
structure Engine (π : Type) where
  matching : Matching
  position : Position
  /-- The longest match so far of the current one. -/
  bookmark : Option Bookmark
  /-- The furthest offset read so far. -/
  frontier : Nat
  payloads : Payloads π

/-- The firing of a rule: which rule of which state it was, what it matched, and what its action
did. -/
structure Firing (τ π : Type) where
  state : StateId
  rule : Nat
  matched : Matched
  effects : List (Effect τ)
  payloads : Payloads π
  next : StateId

inductive Move (τ π : Type) where
  /-- There is nothing to read yet. -/
  | rest
  | read (engine : Engine π) (feed : Feed Char)
  /-- A rule fires. If `replays`, the engine goes back to read characters behind the match again. -/
  | fire (firing : Firing τ π) (engine : Engine π) (replays : Bool)
  | last (firing : Firing τ π) (engine : Engine π)
  | fail (error : LexError) (feed : Feed Char)

/-- Runs the action of a rule on a match, if there is such a rule. -/
def RuleTable.fire? {τ π : Type} (t : RuleTable τ π) (s : StateId) (index : Nat)
    (matched : Matched) (payloads : Payloads π) : Option (Firing τ π) :=
  (t.rules s)[index]?.map fun rule =>
    let (next, out) := rule.action.perform matched payloads
    ⟨s, index, matched, out.effects, out.payloads, next⟩

namespace Engine

variable {τ π : Type}

def start (t : RuleTable τ π) (offset : Nat) : Engine π where
  matching := .enter t RuleTable.initial (.startingAt offset)
  position := .startingAt offset
  bookmark := none
  frontier := offset
  payloads := .empty

def replaying (e : Engine π) : Bool := e.position.offset < e.frontier

def fire? (t : RuleTable τ π) (e : Engine π) (r : Reader Char) (m : Matching) (stop : Position) :
    Option (Firing τ π) :=
  m.winner?.bind fun index =>
    t.fire? m.origin index ⟨r.between m.start.offset stop.offset, ⟨m.start, stop⟩⟩ e.payloads

def deadEnd (config : LexerConfig) (e : Engine π) (f : Feed Char) : Move τ π :=
  let (remaining, feed) := f.take e.matching.start.offset config.preview
  .fail (.deadEnd e.matching.start (String.ofList remaining)) feed

/-- Fires a match that ends at `stop` and goes on behind it. -/
def fireAt (t : RuleTable τ π) (config : LexerConfig) (e : Engine π) (f : Feed Char)
    (m : Matching) (stop : Position) (replays : Bool) : Move τ π :=
  match e.fire? t f.reader m stop with
  | none => e.deadEnd config f
  | some firing =>
    .fire firing
      { e with
        matching := .enter t firing.next stop
        position := stop
        bookmark := none
        payloads := firing.payloads }
      replays

/-- Fires the match in progress, where the engine is. -/
def accept (t : RuleTable τ π) (config : LexerConfig) (e : Engine π) (f : Feed Char) : Move τ π :=
  e.fireAt t config f e.matching e.position false

/-- Fires the match that is remembered and goes back behind it. -/
def backtrack (t : RuleTable τ π) (config : LexerConfig) (e : Engine π) (f : Feed Char) :
    Move τ π :=
  match e.bookmark with
  | none => e.deadEnd config f
  | some mark =>
    e.fireAt t config f mark.matching mark.position (mark.position.offset < e.frontier)

def finish (t : RuleTable τ π) (config : LexerConfig) (e : Engine π) (f : Feed Char) :
    Move τ π :=
  let final := e.matching.derive .endMark
  if final.accepts then
    match e.fire? t f.reader final e.position with
    | none => e.deadEnd config f
    | some firing => .last firing { e with payloads := firing.payloads }
  else e.backtrack t config f

def exceeds (config : LexerConfig) (e : Engine π) : Option Nat :=
  config.maxMatch.filter fun limit => limit < e.position.offset - e.matching.start.offset

def absorb (config : LexerConfig) (e : Engine π) (c : Char) (f : Feed Char) : Move τ π :=
  let position := e.position.advance c
  let next : Engine π :=
    { e with
      matching := e.matching.derive (.char c)
      position := position
      frontier := max e.frontier position.offset }
  match next.exceeds config with
  | some limit => .fail (.matchTooLong limit e.matching.start.line e.matching.start.column) f
  | none => .read next f

def advance (t : RuleTable τ π) (config : LexerConfig) (e : Engine π) (f : Feed Char) :
    Move τ π :=
  if f.ended e.position.offset then e.finish t config f
  else
    match f.head? e.position.offset with
    | some (c, next) => e.absorb config c next
    | none => .rest

def mark (e : Engine π) : Engine π := { e with bookmark := some ⟨e.matching, e.position⟩ }

def move (t : RuleTable τ π) (config : LexerConfig) (e : Engine π) (f : Feed Char) : Move τ π :=
  if e.matching.settled then e.accept t config f
  else if e.matching.accepts then e.mark.advance t config f
  else if e.matching.rejects then e.backtrack t config f
  else e.advance t config f

end Engine

end DerivativeLexer
