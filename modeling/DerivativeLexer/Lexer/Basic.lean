import DerivativeLexer.Rules.Table

/-! # Lexers

A lexer is a rule table in which no pattern has the empty word, together with two limits: how
long one match may grow, and how much of the remaining input an error shows. -/

namespace DerivativeLexer

structure LexerConfig where
  /-- A longer match is refused. -/
  maxMatch : Option Nat
  /-- Number of characters of the remaining input that an error shows. -/
  preview : Nat
deriving DecidableEq

namespace LexerConfig

def standard : LexerConfig := ⟨none, 16⟩

def inspect (c : LexerConfig) : String :=
  let limit :=
    match c.maxMatch with
    | none => "None"
    | some n => "Some(" ++ toString n ++ ")"
  "LexerConfig \x7b max_match_len: " ++ limit ++ ", error_preview_len: " ++ toString c.preview ++
    " \x7d"

end LexerConfig

/-- A rule table all of whose rules read something, and its limits. -/
structure Lexer (τ π : Type) where
  rules : RuleTable τ π
  config : LexerConfig
  productive : rules.firstNullable? = none

namespace Lexer

variable {τ π : Type}

/-- Refuses a table with a pattern that has the empty word. -/
def build (rules : RuleTable τ π) (config : LexerConfig) : Except LexError (Lexer τ π) :=
  match h : rules.firstNullable? with
  | none => .ok ⟨rules, config, h⟩
  | some (state, pattern) => .error (.invalidRule state pattern.render)

def inspect (l : Lexer τ π) : String :=
  "Lexer \x7b rules: " ++ l.rules.inspect ++ ", config: " ++ l.config.inspect ++ " \x7d"

end Lexer

end DerivativeLexer
