import DerivativeLexer.CharSet

/-! # Regular languages

A language is an expression tree over the symbols of an input: its characters and one mark for
the end of the input. Three attributes say whether the empty word belongs to the language,
whether nothing does, and whether the empty word is all there is. The combinators read the
attributes of their operands and leave out what cannot matter, and `derive` is built from the
combinators alone, so derivatives of a language stay small. -/

namespace DerivativeLexer

/-- What a language reads: a character of the input, or the mark at its end. -/
inductive Symbol where
  | char (c : Char)
  | endMark
deriving DecidableEq

inductive Language where
  | literal (c : Char)
  | charSet (s : CharSet)
  | negatedCharSet (s : CharSet)
  | anyChar
  | endOfInput
  | emptyLanguage
  | emptyString
  | concat (first second : Language)
  | union (left right : Language)
  | star (inner : Language)
  | power (inner : Language) (n : Nat)
deriving DecidableEq

namespace Language

/-! ### Attributes -/

def rejectsAll : Language → Bool
  | charSet s => s.isEmpty
  | negatedCharSet s => scalarCount ≤ s.size
  | emptyLanguage => true
  | concat a b => a.rejectsAll || b.rejectsAll
  | union a b => a.rejectsAll && b.rejectsAll
  | power _ 0 => false
  | power a (_ + 1) => a.rejectsAll
  | literal _ | anyChar | endOfInput | emptyString | star _ => false

def acceptsEmpty : Language → Bool
  | emptyString | star _ | power _ 0 => true
  | concat a b => a.acceptsEmpty && b.acceptsEmpty
  | union a b => a.acceptsEmpty || b.acceptsEmpty
  | power a (_ + 1) => a.acceptsEmpty
  | literal _ | charSet _ | negatedCharSet _ | anyChar | endOfInput | emptyLanguage => false

def onlyEmpty : Language → Bool
  | emptyString | power _ 0 => true
  | concat a b => !(a.rejectsAll || b.rejectsAll) && a.onlyEmpty && b.onlyEmpty
  | union a b =>
    !(a.rejectsAll && b.rejectsAll) &&
      (a.onlyEmpty || a.rejectsAll) && (b.onlyEmpty || b.rejectsAll)
  | star a => a.onlyEmpty || a.rejectsAll
  | power a (_ + 1) => a.onlyEmpty
  | literal _ | charSet _ | negatedCharSet _ | anyChar | endOfInput | emptyLanguage => false

/-! ### Combinators -/

def followedBy (a b : Language) : Language :=
  if a.onlyEmpty then b
  else if b.onlyEmpty then a
  else if a.rejectsAll || b.rejectsAll then emptyLanguage
  else concat a b

/-- A quick look for `a` being part of `b`; `false` means that it cannot tell. -/
def within : Language → Language → Bool
  | literal c, literal d => c == d
  | literal _, anyChar => true
  | literal c, charSet s => decide (c ∈ s)
  | literal c, negatedCharSet s => !decide (c ∈ s)
  | charSet _, anyChar => true
  | emptyString, b => b.acceptsEmpty
  | _, _ => false

/-- The words of either side. A side that adds nothing to the other is left out. -/
def or (a b : Language) : Language :=
  if a.rejectsAll then b
  else if b.rejectsAll || a == b then a
  else if a.within b then b
  else if b.within a then a
  else union a b

def isStar : Language → Bool
  | star _ => true
  | _ => false

def zeroOrMore (a : Language) : Language :=
  if a.onlyEmpty || a.isStar then a
  else if a.rejectsAll then emptyString
  else star a

def oneOrMore (a : Language) : Language :=
  if a.onlyEmpty then a
  else if a.rejectsAll then emptyLanguage
  else a.followedBy a.zeroOrMore

def optional (a : Language) : Language :=
  if a.onlyEmpty || a.acceptsEmpty then a
  else if a.rejectsAll then emptyString
  else emptyString.or a

def replicate (a : Language) : Nat → Language
  | 0 => emptyString
  | 1 => a
  | n + 2 =>
    if a.onlyEmpty then emptyString
    else if a.rejectsAll then emptyLanguage
    else power a (n + 2)

/-! ### Derivatives -/

/-- The derivative of `n` words of `a`, given the derivative `d` of one. If `a` has the empty
word, the symbol may also be read by a later one of them. -/
def derivePower (a d : Language) : Nat → Language
  | 0 => emptyLanguage
  | 1 => d
  | n + 2 =>
    if a.onlyEmpty || a.rejectsAll then emptyLanguage
    else
      let head := d.followedBy (a.replicate (n + 1))
      if a.acceptsEmpty then head.or (derivePower a d (n + 1)) else head

/-- What is left to read after `x`: the words `w` such that `x` followed by `w` belongs to the
language. -/
def derive (x : Symbol) : Language → Language
  | literal c => if x = .char c then emptyString else emptyLanguage
  | charSet s =>
    match x with
    | .char c => if c ∈ s then emptyString else emptyLanguage
    | .endMark => emptyLanguage
  | negatedCharSet s =>
    match x with
    | .char c => if c ∈ s then emptyLanguage else emptyString
    | .endMark => emptyLanguage
  | anyChar =>
    match x with
    | .char _ => emptyString
    | .endMark => emptyLanguage
  | endOfInput => if x = .endMark then emptyString else emptyLanguage
  | emptyLanguage | emptyString => emptyLanguage
  | concat a b =>
    let head := (a.derive x).followedBy b
    if a.acceptsEmpty then head.or (b.derive x) else head
  | union a b => (a.derive x).or (b.derive x)
  | star a => (a.derive x).followedBy (star a)
  | power a n => derivePower a (a.derive x) n

def deriveWord (a : Language) (word : List Symbol) : Language :=
  word.foldl (fun l x => l.derive x) a

/-- The symbols of a text, without the mark at its end. -/
def symbols (text : List Char) : List Symbol := text.map .char

def accepts (a : Language) (text : List Char) : Bool :=
  (a.deriveWord (symbols text)).acceptsEmpty

def size : Language → Nat
  | concat a b | union a b => 1 + a.size + b.size
  | star a | power a _ => 1 + a.size
  | _ => 1

theorem deriveWord_nil (a : Language) : a.deriveWord [] = a := rfl

theorem deriveWord_cons (a : Language) (x : Symbol) (w : List Symbol) :
    a.deriveWord (x :: w) = (a.derive x).deriveWord w := rfl

theorem deriveWord_append (a : Language) (v w : List Symbol) :
    a.deriveWord (v ++ w) = (a.deriveWord v).deriveWord w :=
  List.foldl_append

end Language

end DerivativeLexer
