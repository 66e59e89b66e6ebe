import DerivativeLexer.Token.Basic
import Mathlib.Data.List.DropRight

/-! # How tokens lie in a text

Tokens and gaps take turns in a text. A gap is made of blanks, comments up to the end of their line,
and block comments, which nest. What is said here about a list of tokens and a text determines the
text outside the gaps and the place of every character. -/

namespace DerivativeLexer

/-- The characters of a text from one offset up to another. -/
def slice (text : List Char) (start stop : Nat) : List Char := (text.drop start).take (stop - start)

/-- A place in a text: a line for every line feed before it, and a column for every character
behind the last of them. -/
structure Position.In (p : Position) (text : List Char) : Prop where
  offset_le : p.offset ≤ text.length
  line_eq : p.line = 1 + (text.take p.offset).count '\n'
  column_eq : p.column = 1 + ((text.take p.offset).rtakeWhile (· ≠ '\n')).length

/-- What stands behind the `#!` of a block comment, up to and with the `!#` that closes it. A block
comment inside it is complete. -/
inductive BlockBody : List Char → Prop
  | close : BlockBody ['!', '#']
  | char {c : Char} {body : List Char} (hopen : ¬['#', '!'] <+: c :: body)
      (hclose : ¬['!', '#'] <+: c :: body) (h : BlockBody body) : BlockBody (c :: body)
  | nested {inner body : List Char} (hinner : BlockBody inner) (h : BlockBody body) :
      BlockBody ('#' :: '!' :: (inner ++ body))

/-- A blank, a comment or, where there are such, a block comment, in front of what is behind it. -/
inductive GapPiece (blocks : Bool) (behind : List Char) : List Char → Prop
  | blank {c : Char} (hc : c ∈ [' ', '\r', '\t', '\n']) : GapPiece blocks behind [c]
  | comment {body : List Char} (hbody : ∀ c ∈ body, c ≠ '\r' ∧ c ≠ '\n')
      (hbehind : ∀ c ∈ behind.head?, c = '\r' ∨ c = '\n') : GapPiece blocks behind (';' :: body)
  | block {body : List Char} (hblocks : blocks = true) (hbody : BlockBody body) :
      GapPiece blocks behind ('#' :: '!' :: body)

inductive Gap (blocks : Bool) (behind : List Char) : List Char → Prop
  | nil : Gap blocks behind []
  | cons {piece gap : List Char} (hpiece : GapPiece blocks (gap ++ behind) piece)
      (h : Gap blocks behind gap) : Gap blocks behind (piece ++ gap)

/-- The gaps of a text: in front of the first token, between two, and behind the last one. -/
def gapBounds (start : Nat) (text : List Char) (tokens : List Token) : List (Nat × Nat) :=
  (start :: tokens.map (·.span.stop.offset)).zip
    (tokens.map (·.span.start.offset) ++ [text.length])

/-- From the offset `start` on the text is made of the tokens, each with its text and its place,
and of gaps. -/
structure LosslessFrom (blocks : Bool) (start : Nat) (text : List Char) (tokens : List Token) :
    Prop where
  lexemes : ∀ t ∈ tokens,
    t.lexeme = String.ofList (slice text t.span.start.offset t.span.stop.offset)
  positions : ∀ t ∈ tokens, t.span.start.In text ∧ t.span.stop.In text
  nonempty : ∀ t ∈ tokens, t.span.start.offset < t.span.stop.offset
  behind : ∀ t ∈ tokens, start ≤ t.span.start.offset
  ordered : tokens.Pairwise fun t u => t.span.stop.offset ≤ u.span.start.offset
  gaps : ∀ bounds ∈ gapBounds start text tokens,
    Gap blocks (text.drop bounds.2) (slice text bounds.1 bounds.2)

def Lossless (blocks : Bool) (text : List Char) (tokens : List Token) : Prop :=
  LosslessFrom blocks 0 text tokens

/-- The tokens of a text that begins at a place, one behind the other. -/
inductive Laid (blocks : Bool) : Position → List Char → List Token → Prop
  | last {place : Position} {gap : List Char} (hgap : Gap blocks [] gap) :
      Laid blocks place gap []
  | token {place : Position} {gap lexeme rest : List Char} {t : Token} {tokens : List Token}
      (hgap : Gap blocks (lexeme ++ rest) gap) (hne : lexeme ≠ [])
      (hlexeme : t.lexeme = String.ofList lexeme)
      (hspan : t.span = ⟨place.advanceBy gap, place.advanceBy (gap ++ lexeme)⟩)
      (h : Laid blocks (place.advanceBy (gap ++ lexeme)) rest tokens) :
      Laid blocks place (gap ++ (lexeme ++ rest)) (t :: tokens)

/-- The tokens of a text that begins inside a string literal, which began at a place with some
characters. -/
inductive LaidInString (blocks : Bool) (start : Position) (read : List Char) (place : Position) :
    List Char → List Token → Prop
  | close {more rest : List Char} {t : Token} {tokens : List Token}
      (hlexeme : t.lexeme = String.ofList (read ++ more))
      (hspan : t.span = ⟨start, place.advanceBy more⟩)
      (h : Laid blocks (place.advanceBy more) rest tokens) :
      LaidInString blocks start read place (more ++ rest) (t :: tokens)

/-- The tokens of a text that begins inside a block comment with so many others around it. -/
inductive LaidInBlock (blocks : Bool) : Nat → Position → List Char → List Token → Prop
  | outer {place : Position} {body rest : List Char} {tokens : List Token}
      (hbody : BlockBody body) (h : Laid blocks (place.advanceBy body) rest tokens) :
      LaidInBlock blocks 0 place (body ++ rest) tokens
  | inner {depth : Nat} {place : Position} {body rest : List Char} {tokens : List Token}
      (hbody : BlockBody body) (h : LaidInBlock blocks depth (place.advanceBy body) rest tokens) :
      LaidInBlock blocks (depth + 1) place (body ++ rest) tokens

/-! ### Places -/

namespace Position

theorem advanceBy_start (text : List Char) :
    start.advanceBy text =
      ⟨text.length, 1 + text.count '\n', 1 + (text.rtakeWhile (· ≠ '\n')).length⟩ := by
  induction text using List.reverseRecOn with
  | nil => rfl
  | append_singleton text c ih =>
    rw [advanceBy_append, ih, advanceBy_cons, advanceBy_nil, advance]
    split_ifs with hc
    · subst hc
      rw [List.rtakeWhile_concat_neg _ _ _ (by simp), List.count_append, List.length_append]
      rfl
    · rw [List.rtakeWhile_concat_pos _ _ _ (by simpa using hc), List.count_append,
        List.length_append, List.length_append, List.count_singleton,
        if_neg (by simpa using hc)]
      rfl

theorem in_advanceBy_start (text rest : List Char) : (start.advanceBy text).In (text ++ rest) := by
  have htake : (text ++ rest).take text.length = text := List.take_left
  rw [advanceBy_start]
  refine ⟨?_, ?_, ?_⟩
  · simp
  · rw [htake]
  · rw [htake]

end Position

theorem slice_append (a b c : List Char) :
    slice (a ++ (b ++ c)) a.length (a.length + b.length) = b := by
  rw [slice, List.drop_left, Nat.add_sub_cancel_left, List.take_left]

/-! ### Gaps -/

namespace Laid

variable {blocks : Bool} {place : Position} {piece text : List Char} {tokens : List Token}

/-- One more piece in front of the first gap. -/
theorem cons_piece (h : Laid blocks (place.advanceBy piece) text tokens)
    (hpiece : GapPiece blocks text piece) : Laid blocks place (piece ++ text) tokens := by
  cases h with
  | last hgap =>
    refine .last (.cons ?_ hgap)
    rw [List.append_nil]
    exact hpiece
  | token hgap hne hlexeme hspan h =>
    rw [← List.append_assoc]
    refine .token (.cons hpiece hgap) hne hlexeme ?_ ?_
    · rw [hspan, ← Position.advanceBy_append, ← Position.advanceBy_append, List.append_assoc]
    · rw [List.append_assoc, Position.advanceBy_append]
      exact h

theorem blanks (hblank : ∀ c ∈ piece, c ∈ [' ', '\r', '\t', '\n'])
    (h : Laid blocks (place.advanceBy piece) text tokens) :
    Laid blocks place (piece ++ text) tokens := by
  induction piece generalizing place with
  | nil => exact h
  | cons c rest ih =>
    obtain ⟨hc, hrest⟩ := List.forall_mem_cons.1 hblank
    have hlaid : Laid blocks (place.advanceBy [c]) (rest ++ text) tokens := ih hrest h
    exact hlaid.cons_piece (.blank hc)

/-! ### Inside of tokens and comments -/

theorem openString (h : LaidInString blocks place piece (place.advanceBy piece) text tokens)
    (hne : piece ≠ []) : Laid blocks place (piece ++ text) tokens := by
  cases h with
  | @close more rest t tokens hlexeme hspan h =>
    rw [← Position.advanceBy_append] at hspan h
    rw [← List.append_assoc]
    exact .token .nil (List.append_ne_nil_of_left_ne_nil hne more) hlexeme hspan h

theorem growString {start : Position} {read : List Char}
    (h : LaidInString blocks start (read ++ piece) (place.advanceBy piece) text tokens) :
    LaidInString blocks start read place (piece ++ text) tokens := by
  cases h with
  | close hlexeme hspan h =>
    rw [← Position.advanceBy_append] at hspan h
    rw [List.append_assoc] at hlexeme
    rw [← List.append_assoc]
    exact .close hlexeme hspan h

theorem openBlock (h : LaidInBlock blocks 0 (place.advanceBy ['#', '!']) text tokens)
    (hblocks : blocks = true) : Laid blocks place (['#', '!'] ++ text) tokens := by
  cases h with
  | @outer _ body rest _ hbody h =>
    have hlaid : Laid blocks (place.advanceBy ('#' :: '!' :: body)) rest tokens := h
    exact hlaid.cons_piece (.block hblocks hbody)

theorem nestBlock {depth : Nat}
    (h : LaidInBlock blocks (depth + 1) (place.advanceBy ['#', '!']) text tokens) :
    LaidInBlock blocks depth place (['#', '!'] ++ text) tokens := by
  cases h with
  | inner hinner h =>
    cases h with
    | outer hbody h =>
      rw [← Position.advanceBy_append, ← Position.advanceBy_append] at h
      rw [← List.append_assoc, ← List.append_assoc]
      exact .outer (.nested hinner hbody) h
    | inner hbody h =>
      rw [← Position.advanceBy_append, ← Position.advanceBy_append] at h
      rw [← List.append_assoc, ← List.append_assoc]
      exact .inner (.nested hinner hbody) h

/-- A character inside a block comment that no comment opens or closes with. -/
theorem growBlock {depth : Nat} {c : Char}
    (h : LaidInBlock blocks depth (place.advanceBy [c]) text tokens)
    (hopen : ¬['#', '!'] <+: c :: text) (hclose : ¬['!', '#'] <+: c :: text) :
    LaidInBlock blocks depth place ([c] ++ text) tokens := by
  have hchar : ∀ {body}, BlockBody body → body <+: text → BlockBody (c :: body) := by
    intro body hbody hprefix
    have hmore : c :: body <+: c :: text := (List.prefix_cons_inj c).2 hprefix
    exact .char (fun h => hopen (h.trans hmore)) (fun h => hclose (h.trans hmore)) hbody
  cases h with
  | outer hbody h =>
    rw [← List.append_assoc]
    exact .outer (hchar hbody (List.prefix_append _ _)) h
  | inner hbody h =>
    rw [← List.append_assoc]
    exact .inner (hchar hbody (List.prefix_append _ _)) h

/-! ### What a laid out text is made of -/

theorem losslessFrom {before : List Char} (h : Laid blocks place text tokens)
    (hplace : place = Position.start.advanceBy before) :
    LosslessFrom blocks before.length (before ++ text) tokens := by
  induction h generalizing before with
  | @last place gap hgap =>
    refine ⟨by simp, by simp, by simp, by simp, .nil, fun bounds hbounds => ?_⟩
    obtain rfl := List.mem_singleton.1 hbounds
    rw [List.drop_length, List.length_append]
    have hslice := slice_append before gap []
    rw [List.append_nil] at hslice
    rw [hslice]
    exact hgap
  | @token place gap lexeme rest t tokens hgap hne hlexeme hspan h ih =>
    have htext : before ++ (gap ++ (lexeme ++ rest)) = before ++ gap ++ (lexeme ++ rest) := by
      rw [List.append_assoc]
    have htext' : before ++ (gap ++ (lexeme ++ rest)) = before ++ (gap ++ lexeme) ++ rest := by
      simp only [List.append_assoc]
    have hbehind : ∀ more, place.advanceBy more = Position.start.advanceBy (before ++ more) := by
      intro more
      rw [hplace, Position.advanceBy_append]
    have hstart : t.span.start = Position.start.advanceBy (before ++ gap) := by
      rw [hspan]
      exact hbehind gap
    have hstop : t.span.stop = Position.start.advanceBy (before ++ (gap ++ lexeme)) := by
      rw [hspan]
      exact hbehind (gap ++ lexeme)
    have hstart' : t.span.start.offset = (before ++ gap).length := by
      rw [hstart, Position.advanceBy_start]
    have hstop' : t.span.stop.offset = (before ++ gap).length + lexeme.length := by
      rw [hstop, Position.advanceBy_start, ← List.length_append, List.append_assoc]
    have hlater := ih (hbehind (gap ++ lexeme))
    have hlength : (before ++ (gap ++ lexeme)).length = t.span.stop.offset := by
      rw [hstop', ← List.length_append, List.append_assoc]
    rw [← htext', hlength] at hlater
    have hpos := List.length_pos_of_ne_nil hne
    refine
      { lexemes := List.forall_mem_cons.2 ⟨?_, hlater.lexemes⟩
        positions := List.forall_mem_cons.2 ⟨⟨?_, ?_⟩, hlater.positions⟩
        nonempty := List.forall_mem_cons.2 ⟨by omega, hlater.nonempty⟩
        behind := List.forall_mem_cons.2 ⟨?_, fun u hu => ?_⟩
        ordered := List.pairwise_cons.2 ⟨hlater.behind, hlater.ordered⟩
        gaps := List.forall_mem_cons.2 ⟨?_, hlater.gaps⟩ }
    · rw [hlexeme, hstart', hstop', htext, slice_append]
    · rw [hstart, htext]
      exact Position.in_advanceBy_start _ _
    · rw [hstop, htext']
      exact Position.in_advanceBy_start _ _
    · rw [hstart', List.length_append]
      exact Nat.le_add_right _ _
    · have hle := hlater.behind u hu
      rw [hstop', List.length_append] at hle
      omega
    · have hslice := slice_append before gap (lexeme ++ rest)
      rw [← List.length_append, ← hstart'] at hslice
      show Gap blocks (List.drop t.span.start.offset _) (slice _ before.length t.span.start.offset)
      rw [hslice, htext, hstart', List.drop_left]
      exact hgap

theorem lossless (h : Laid blocks .start text tokens) : Lossless blocks text tokens := by
  have hstart : Position.start = Position.start.advanceBy [] := rfl
  exact h.losslessFrom hstart

end Laid

end DerivativeLexer
