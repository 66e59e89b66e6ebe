import DerivativeLexer.Token.Basic

/-! # The order of tokens

Kinds are ordered by their class and then by their value: texts by code points, integers by size,
decimals by the total order of all bit patterns, `false` before `true`. Tokens are ordered by
kind, then by place, then by text. Sorting keeps equal tokens in their order. -/

namespace DerivativeLexer

namespace TokenTag

def order (s t : TokenTag) : Ordering := compare s.rank t.rank

end TokenTag

namespace TokenKind

def valueOrder : TokenKind → TokenKind → Ordering
  | opening a, opening b | closing a, closing b | punct a, punct b | symbol a, symbol b
  | string a, string b | keyword a, keyword b => compare a b
  | integer a, integer b => compare a.toInt b.toInt
  | decimal a, decimal b => compare a.orderKey b.orderKey
  | char a, char b => compare a.toNat b.toNat
  | boolean a, boolean b => compare a.toNat b.toNat
  | malformed e r, malformed e' r' => (e.order e').then (compare r r')
  | _, _ => .eq

def order (a b : TokenKind) : Ordering := (a.tag.order b.tag).then (a.valueOrder b)

/-- Kinds are equal when neither comes before the other. -/
def same (a b : TokenKind) : Bool := a.order b == .eq

end TokenKind

namespace Token

def order (a b : Token) : Ordering :=
  (a.kind.order b.kind).then <|
    (a.span.start.order b.span.start).then <|
      (a.span.stop.order b.span.stop).then <| compare a.lexeme b.lexeme

def same (a b : Token) : Bool := a.kind.same b.kind && a.lexeme == b.lexeme && a.span == b.span

/-- The tokens in ascending order; equal ones stay as they were. -/
def sort (tokens : List Token) : List Token :=
  tokens.mergeSort fun a b => (a.order b).isLE

end Token

end DerivativeLexer
