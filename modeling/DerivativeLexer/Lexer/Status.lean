import DerivativeLexer.LexError

/-! # Status of a session

A session is live while it steps through fresh input or reads characters again that it had read
past the last match. It stops at the end of its input, on an error, or when it is cancelled. -/

namespace DerivativeLexer

inductive SessionStatus where
  /-- Reading fresh input. -/
  | stepping
  /-- Reading characters again. -/
  | backtracking
  /-- The end of the input was read. -/
  | terminated
  | failed (error : LexError)
  | cancelled
deriving DecidableEq

namespace SessionStatus

def isLive : SessionStatus → Bool
  | stepping | backtracking => true
  | terminated | failed _ | cancelled => false

/-- The error of a session with this status. A session writes it down in the step before it sets the
status, and nobody looks in between, so it needs no place of its own: `Network.error_cell_agrees`
follows such a place through a run. -/
def error? : SessionStatus → Option LexError
  | failed e => some e
  | cancelled => some .cancelled
  | stepping | backtracking | terminated => none

/-- The status after a character; `replaying` says that characters read before are still ahead. -/
def afterRead (s : SessionStatus) (replaying : Bool) : SessionStatus :=
  if s = backtracking && !replaying then stepping else s

def afterFire (s : SessionStatus) (replays : Bool) : SessionStatus :=
  if replays then backtracking else s

def label : SessionStatus → String
  | stepping => "Stepping"
  | backtracking => "Backtracking"
  | terminated => "Terminated"
  | failed _ => "Failed"
  | cancelled => "Cancelled"

theorem isLive_afterRead {s : SessionStatus} (h : s.isLive = true) (replaying : Bool) :
    (s.afterRead replaying).isLive = true := by
  unfold afterRead
  split
  · rfl
  · exact h

theorem isLive_afterFire {s : SessionStatus} (h : s.isLive = true) (replays : Bool) :
    (s.afterFire replays).isLive = true := by
  unfold afterFire
  split
  · rfl
  · exact h

end SessionStatus

end DerivativeLexer
