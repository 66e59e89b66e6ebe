import DerivativeLexer.Position
import DerivativeLexer.Text.Escape

/-! # Errors

Why a rule table is refused, and why a session stops before the end of its input. A literal
without a value is no error; it becomes a token. -/

namespace DerivativeLexer

inductive LexError where
  /-- No rule matches here; `remaining` is the beginning of what is left. -/
  | deadEnd (place : Position) (remaining : String)
  /-- A match that started in this line and column grew past the limit. -/
  | matchTooLong (limit line column : Nat)
  /-- A pattern has the empty word, so its rule could fire without reading anything. -/
  | invalidRule (state pattern : String)
  | cancelled
deriving DecidableEq

/-- Whether it makes sense to try again. -/
inductive Severity where
  | fatal
  | recoverable
deriving DecidableEq

namespace LexError

def severity : LexError → Severity
  | deadEnd .. | matchTooLong .. | invalidRule .. => .fatal
  | cancelled => .recoverable

def message : LexError → String
  | deadEnd place remaining =>
    "Lexing failed at line " ++ toString place.line ++ ", column " ++ toString place.column ++
      " (offset " ++ toString place.offset ++ ") right before: " ++ quoted remaining
  | matchTooLong limit line column =>
    "Match exceeded " ++ toString limit ++ " characters starting at line " ++ toString line ++
      ", column " ++ toString column
  | invalidRule state pattern =>
    "Invalid rule in state " ++ state ++ ": pattern " ++ pattern ++ " accepts the empty string"
  | cancelled => "Lexing session cancelled"

def label : LexError → String
  | deadEnd .. => "DeadEnd"
  | matchTooLong .. => "MatchTooLong"
  | invalidRule .. => "InvalidRule"
  | cancelled => "Cancelled"

end LexError

end DerivativeLexer
