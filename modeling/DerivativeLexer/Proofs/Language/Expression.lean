import DerivativeLexer.Proofs.Language.Derivative

/-! # Languages as they are written

An expression is a way to write a language with the constructors that are open to everyone, with
derivatives taken anywhere inside of it. It has two readings: the tree that the constructors
build, with everything they leave out on the way, and the set of words that the expression
denotes by the rules of formal languages. The main statements say that derivation and the
attributes read the second off the first. -/

namespace DerivativeLexer

open Computability

inductive Expression where
  | literal (c : Char)
  | lit (s : String)
  | charSet (cs : List Char)
  | negatedCharSet (cs : List Char)
  | range (lo hi : Char)
  | anyChar
  | endOfInput
  | emptyLanguage
  | emptyString
  | followedBy (first second : Expression)
  | or (left right : Expression)
  | zeroOrMore (inner : Expression)
  | oneOrMore (inner : Expression)
  | optional (inner : Expression)
  | replicate (inner : Expression) (n : Nat)
  | derive (x : Symbol) (inner : Expression)

namespace Expression

def build : Expression → Language
  | literal c => .literal c
  | lit s => .lit s
  | charSet cs => .charSet (.ofList cs)
  | negatedCharSet cs => .negatedCharSet (.ofList cs)
  | range lo hi => .range lo hi
  | anyChar => .anyChar
  | endOfInput => .endOfInput
  | emptyLanguage => .emptyLanguage
  | emptyString => .emptyString
  | followedBy a b => a.build.followedBy b.build
  | or a b => a.build.or b.build
  | zeroOrMore a => a.build.zeroOrMore
  | oneOrMore a => a.build.oneOrMore
  | optional a => a.build.optional
  | replicate a n => a.build.replicate n
  | derive x a => a.build.derive x

/-- The set of words that an expression denotes. Only characters are in character sets, and the
mark at the end of the input is a word of its own. -/
def denotation : Expression → FormalLanguage Symbol
  | literal c => {[.char c]}
  | lit s => {s.toList.map .char}
  | charSet cs => {w | ∃ c ∈ cs, w = [.char c]}
  | negatedCharSet cs => {w | ∃ c ∉ cs, w = [.char c]}
  | range lo hi => {w | ∃ c, (lo ≤ c ∧ c ≤ hi) ∧ w = [.char c]}
  | anyChar => {w | ∃ c, w = [.char c]}
  | endOfInput => {[.endMark]}
  | emptyLanguage => 0
  | emptyString => 1
  | followedBy a b => a.denotation * b.denotation
  | or a b => a.denotation + b.denotation
  | zeroOrMore a => a.denotation∗
  | oneOrMore a => a.denotation * a.denotation∗
  | optional a => 1 + a.denotation
  | replicate a n => a.denotation ^ n
  | derive x a => a.denotation.leftQuotient [x]

theorem charWords_congr {p q : Char → Prop} (h : ∀ c, p c ↔ q c) :
    Language.charWords p = Language.charWords q := by
  have hpq : p = q := funext fun c => propext (h c)
  rw [hpq]

theorem words_build (e : Expression) : e.build.words = e.denotation := by
  induction e with
  | literal c =>
    ext w
    exact ⟨fun ⟨d, hd, hw⟩ => hd ▸ hw, fun hw => ⟨c, rfl, hw⟩⟩
  | lit s => exact Language.words_text s.toList
  | charSet cs => exact charWords_congr fun c => CharSet.mem_ofList
  | negatedCharSet cs => exact charWords_congr fun c => not_congr CharSet.mem_ofList
  | range lo hi =>
    refine charWords_congr fun c => ?_
    rw [CharSet.mem_interval, Char.le_def, Char.le_def]
    exact Iff.rfl
  | anyChar =>
    ext w
    exact ⟨fun ⟨c, _, hw⟩ => ⟨c, hw⟩, fun ⟨c, hw⟩ => ⟨c, trivial, hw⟩⟩
  | endOfInput => rfl
  | emptyLanguage => rfl
  | emptyString => rfl
  | followedBy a b iha ihb => rw [build, Language.words_followedBy, iha, ihb, denotation]
  | or a b iha ihb => rw [build, Language.words_or, iha, ihb, denotation]
  | zeroOrMore a ih => rw [build, Language.words_zeroOrMore, ih, denotation]
  | oneOrMore a ih => rw [build, Language.words_oneOrMore, ih, denotation]
  | optional a ih => rw [build, Language.words_optional, ih, denotation]
  | replicate a n ih => rw [build, Language.words_replicate, ih, denotation]
  | derive x a ih => rw [build, Language.words_derive, ih, denotation]

/-- The derivative law: a word belongs to an expression just if the derivative of its tree along
the word has the empty word. In particular a text is accepted just if it belongs. -/
theorem derivative_law (e : Expression) :
    (∀ w : List Symbol, (e.build.deriveWord w).acceptsEmpty = true ↔ w ∈ e.denotation) ∧
      ∀ text : List Char, e.build.accepts text = true ↔ text.map .char ∈ e.denotation := by
  have law : ∀ w, (e.build.deriveWord w).acceptsEmpty = true ↔ w ∈ e.denotation := by
    intro w
    rw [Language.acceptsEmpty_deriveWord_iff, words_build]
  exact ⟨law, fun text => law (text.map .char)⟩

example : (replicate (optional (literal 'a')) 2).build.accepts ['a', 'a'] = true := by decide

/-- The attributes are exact on every tree that can be written, and on every derivative of it
along any word: `0` is the empty set of words, and `1` the set of the empty word alone. -/
theorem attributes_exact (e : Expression) (w : List Symbol) :
    ((e.build.deriveWord w).acceptsEmpty = true ↔ [] ∈ e.denotation.leftQuotient w) ∧
      ((e.build.deriveWord w).rejectsAll = true ↔ e.denotation.leftQuotient w = 0) ∧
      ((e.build.deriveWord w).onlyEmpty = true ↔ e.denotation.leftQuotient w = 1) := by
  have hwords : (e.build.deriveWord w).words = e.denotation.leftQuotient w := by
    rw [Language.words_deriveWord, words_build]
  refine ⟨?_, ?_, ?_⟩
  · rw [Language.acceptsEmpty_iff, hwords]
  · rw [Language.rejectsAll_iff, hwords]
  · rw [Language.onlyEmpty_iff, hwords]

end Expression

end DerivativeLexer
