import DerivativeLexer.Proofs.Grammar.Resumption

/-! # String literals decode

The text behind an opening quote is read by a scanner that knows nothing of rules: it takes one
unit after the other, a backslash with the character that it escapes or any single character, up
to the closing quote. Both grammars read a literal as the scanner does, one rule for each unit. A
text that is written with escapes is read as that text. -/

namespace DerivativeLexer

open DerivativeLexer.Language

/-! ### The scanner -/

/-- What a backslash and the character behind it stand for. -/
def escaped? : Char → Option Char
  | '"' => some '"'
  | 'n' => some '\n'
  | 't' => some '\t'
  | '\\' => some '\\'
  | _ => none

/-- A string literal behind its opening quote: what it stands for, its characters up to and with
the closing quote, and the text behind them. -/
structure ScannedString where
  value : List Char
  body : List Char
  rest : List Char
deriving DecidableEq

def ScannedString.push (meaning : Char) (unit : List Char) (lit : ScannedString) : ScannedString :=
  ⟨meaning :: lit.value, unit ++ lit.body, lit.rest⟩

/-- Reads a literal behind its opening quote, if it is closed. -/
def scanString : List Char → Option ScannedString
  | [] => none
  | '"' :: rest => some ⟨[], ['"'], rest⟩
  | '\\' :: c :: rest =>
    match escaped? c with
    | some meaning => (scanString rest).map (.push meaning ['\\', c])
    | none => (scanString (c :: rest)).map (.push '\\' ['\\'])
  | c :: rest => (scanString rest).map (.push c [c])

/-- The text of a value between quotes. -/
def writeChar : Char → List Char
  | '"' => ['\\', '"']
  | '\n' => ['\\', 'n']
  | '\t' => ['\\', 't']
  | '\\' => ['\\', '\\']
  | c => [c]

def writeString (value : String) : String :=
  String.ofList ('"' :: (value.toList.flatMap writeChar ++ ['"']))

/-- One unit of a literal, its meaning, and the text behind it. -/
inductive StringUnit : List Char → Char → List Char → Prop
  | escape {c meaning : Char} {rest : List Char} (h : escaped? c = some meaning) :
      StringUnit ['\\', c] meaning rest
  | char {c : Char} {rest : List Char} (hquote : c ≠ '"')
      (hescape : c = '\\' → ∀ d ∈ rest.head?, escaped? d = none) : StringUnit [c] c rest

section

variable {p q rest : List Char} {c meaning : Char} {lit : ScannedString}

theorem scanString_unit (h : StringUnit p meaning q) :
    scanString (p ++ q) = (scanString q).map (.push meaning p) := by
  cases h with
  | escape h =>
    rw [List.cons_append, List.singleton_append, scanString, h]
  | char hquote hescape =>
    rw [List.singleton_append]
    by_cases hc : meaning = '\\'
    · subst hc
      cases q with
      | nil => rfl
      | cons d rest => rw [scanString, hescape rfl d rfl]
    · rw [scanString]
      · exact hquote
      · exact fun _ _ hslash => (hc hslash).elim

/-- Every text comes to its end, begins with a closing quote, or begins with a unit. -/
theorem scanString_induction {P : List Char → Option ScannedString → Prop} (ends : P [] none)
    (closes : ∀ rest, P ('"' :: rest) (some ⟨[], ['"'], rest⟩))
    (unit : ∀ p meaning q, StringUnit p meaning q → P q (scanString q) →
      P (p ++ q) ((scanString q).map (.push meaning p))) (text : List Char) :
    P text (scanString text) := by
  induction text using scanString.induct with
  | case1 => exact ends
  | case2 rest => exact closes rest
  | case3 c rest meaning hmeaning ih =>
    have hunit : StringUnit ['\\', c] meaning rest := .escape hmeaning
    have hscan := unit _ _ _ hunit ih
    rwa [← scanString_unit hunit] at hscan
  | case4 c rest hnone ih =>
    have hunit : StringUnit ['\\'] '\\' (c :: rest) :=
      .char (by decide) fun _ d hd => Option.some.inj hd ▸ hnone
    have hscan := unit _ _ _ hunit ih
    rwa [← scanString_unit hunit] at hscan
  | case5 c rest hquote hescape ih =>
    have hunit : StringUnit [c] c rest := by
      refine .char hquote fun hslash d hd => ?_
      obtain ⟨more, rfl⟩ := List.head?_eq_some_iff.1 hd
      exact (hescape d more hslash rfl).elim
    have hscan := unit _ _ _ hunit ih
    rwa [← scanString_unit hunit] at hscan

theorem scanString_append {text : List Char} (h : scanString text = some lit) :
    lit.body ++ lit.rest = text := by
  induction text using scanString_induction generalizing lit with
  | ends => cases h
  | closes rest =>
    obtain rfl := Option.some.inj h
    rfl
  | unit p meaning q hunit ih =>
    obtain ⟨inner, hinner, rfl⟩ := Option.map_eq_some_iff.1 h
    rw [← ih hinner]
    exact List.append_assoc p inner.body inner.rest

theorem scanString_body_ne_nil {text : List Char} (h : scanString text = some lit) :
    lit.body ≠ [] := by
  induction text using scanString_induction generalizing lit with
  | ends => cases h
  | closes rest =>
    obtain rfl := Option.some.inj h
    exact List.cons_ne_nil _ _
  | unit p meaning q hunit ih =>
    obtain ⟨inner, hinner, rfl⟩ := Option.map_eq_some_iff.1 h
    exact List.append_ne_nil_of_right_ne_nil p (ih hinner)

/-- What is behind a literal has no part in reading it. -/
theorem scanString_body_append {text : List Char} (h : scanString text = some lit)
    (behind : List Char) :
    scanString (lit.body ++ behind) = some ⟨lit.value, lit.body, behind⟩ := by
  induction text using scanString_induction generalizing lit with
  | ends => cases h
  | closes rest =>
    obtain rfl := Option.some.inj h
    rfl
  | unit p meaning q hunit ih =>
    obtain ⟨inner, hinner, rfl⟩ := Option.map_eq_some_iff.1 h
    -- a backslash that stands for itself looks at the next character, which is the same
    have hhead : (inner.body ++ behind).head? = q.head? := by
      rw [← scanString_append hinner, List.head?_append_of_ne_nil _ (scanString_body_ne_nil hinner),
        List.head?_append_of_ne_nil _ (scanString_body_ne_nil hinner)]
    have hunit' : StringUnit p meaning (inner.body ++ behind) := by
      cases hunit with
      | escape h => exact .escape h
      | char hquote hescape => exact .char hquote (hhead ▸ hescape)
    rw [ScannedString.push, List.append_assoc, scanString_unit hunit', ih hinner]
    rfl

theorem stringUnit_writeChar (c : Char) (rest : List Char) : StringUnit (writeChar c) c rest := by
  unfold writeChar
  split
  · exact .escape rfl
  · exact .escape rfl
  · exact .escape rfl
  · exact .escape rfl
  · rename_i hquote _ _ hslash
    exact .char hquote fun h => (hslash h).elim

/-- What is written with escapes is read back. -/
theorem scanString_written (value rest : List Char) :
    scanString (value.flatMap writeChar ++ '"' :: rest) =
      some ⟨value, value.flatMap writeChar ++ ['"'], rest⟩ := by
  induction value with
  | nil => rfl
  | cons c later ih =>
    rw [List.flatMap_cons, List.append_assoc, scanString_unit (stringUnit_writeChar c _), ih,
      Option.map_some, ScannedString.push, List.append_assoc]

end

/-! ### The rules inside of a literal -/

namespace Layers

variable {π : Type}

def closeRule (g : Layers π) : Rule Token π :=
  ⟨lit "\"", g.strings.update (Grammar.closeString g.main)⟩

def escapeRule (g : Layers π) (escape : Char × Char) : Rule Token π :=
  ⟨(lit "\\").followedBy (literal escape.1),
    g.strings.update (Grammar.growString g.strings.state fun _ => [escape.2])⟩

def charRule (g : Layers π) : Rule Token π :=
  ⟨anyChar, g.strings.update (Grammar.growString g.strings.state id)⟩

/-- The rules of a table that open a literal and that read it. -/
structure Quotes (g : Layers π) (t : RuleTable Token π) : Prop where
  opens : t.First g.main (symbols ['"']) ⟨lit "\"", Grammar.openString g.strings⟩
  alone : t.noneLonger g.main ['"'] = true
  inside : t.rules g.strings.state =
    g.closeRule :: (Grammar.stringEscapes.map g.escapeRule ++ [g.charRule])

/-- The token of a literal of which a part was read before. -/
def stringToken (read : StringBody) (lit : ScannedString) (stop : Position) : Token :=
  ⟨.string (String.ofList (read.value ++ lit.value)), String.ofList (read.lexeme ++ lit.body),
    ⟨read.start, stop⟩⟩

variable {g : Layers π} {t : RuleTable Token π} {l : Lexer Token π}

theorem words_escape (mark : Char) :
    ((lit "\\").followedBy (literal mark)).words = {symbols ['\\', mark]} :=
  words_text ['\\', mark]

theorem mem_stringEscapes {c meaning : Char} (h : escaped? c = some meaning) :
    ∃ before after, Grammar.stringEscapes = before ++ (c, meaning) :: after ∧
      ∀ escape ∈ before, escape.1 ≠ c := by
  unfold escaped? at h
  split at h
  · cases h
    exact ⟨[], Grammar.stringEscapes.drop 1, rfl, by decide⟩
  · cases h
    exact ⟨Grammar.stringEscapes.take 1, Grammar.stringEscapes.drop 2, rfl, by decide⟩
  · cases h
    exact ⟨Grammar.stringEscapes.take 2, Grammar.stringEscapes.drop 3, rfl, by decide⟩
  · cases h
    exact ⟨Grammar.stringEscapes.take 3, [], rfl, by decide⟩
  · cases h

namespace Quotes

theorem fixedOrAny (h : g.Quotes t) : t.FixedOrAny g.strings.state
    (['"'] :: Grammar.stringEscapes.map fun escape => ['\\', escape.1]) := by
  rw [RuleTable.FixedOrAny, h.inside, List.forall_mem_cons, List.forall_mem_append,
    List.forall_mem_singleton]
  refine ⟨.inl ⟨_, List.mem_cons_self, words_text ['"']⟩, fun rule hrule => ?_, .inr rfl⟩
  obtain ⟨escape, hescape, rfl⟩ := List.mem_map.1 hrule
  exact .inl ⟨_, List.mem_cons_of_mem _ (List.mem_map_of_mem hescape), words_escape escape.1⟩

/-- A unit is the match of a rule that appends its meaning to the value. -/
theorem first_unit (h : g.Quotes t) {p q : List Char} {meaning : Char}
    (hunit : StringUnit p meaning q) : ∃ pattern f,
      t.First g.strings.state (symbols p)
        ⟨pattern, g.strings.update (Grammar.growString g.strings.state f)⟩ ∧ f p = [meaning] := by
  cases hunit with
  | @escape c _ _ hescaped =>
    obtain ⟨before, after, hescapes, hbefore⟩ := mem_stringEscapes hescaped
    refine ⟨(lit "\\").followedBy (literal c), fun _ => [meaning],
      ⟨g.closeRule :: before.map g.escapeRule, after.map g.escapeRule ++ [g.charRule], ?_, ?_, ?_⟩,
      rfl⟩
    · rw [h.inside, hescapes, List.map_append, List.append_assoc]
      rfl
    · rw [words_escape]
      exact Set.mem_singleton _
    · refine List.forall_mem_cons.2 ⟨fun hmem => ?_, fun rule hrule hmem => ?_⟩
      · cases symbols_injective (Set.mem_singleton_iff.1 (words_text ['"'] ▸ hmem))
      · obtain ⟨escape, hescape, rfl⟩ := List.mem_map.1 hrule
        rw [escapeRule, words_escape] at hmem
        cases symbols_injective (Set.mem_singleton_iff.1 hmem)
        exact hbefore escape hescape rfl
  | char hquote =>
    refine ⟨anyChar, id,
      ⟨g.closeRule :: Grammar.stringEscapes.map g.escapeRule, [], h.inside, ?_, ?_⟩, rfl⟩
    · exact symbols_mem_anyChar.2 ⟨meaning, rfl⟩
    · refine List.forall_mem_cons.2 ⟨fun hmem => ?_, fun rule hrule hmem => ?_⟩
      · cases symbols_injective (Set.mem_singleton_iff.1 (words_text ['"'] ▸ hmem))
        exact hquote rfl
      · obtain ⟨escape, -, rfl⟩ := List.mem_map.1 hrule
        rw [escapeRule, words_escape] at hmem
        cases symbols_injective (Set.mem_singleton_iff.1 hmem)

/-- No rule has a longer beginning of the text than the unit. -/
theorem nothingBeyond_unit (h : g.Quotes t) {p q : List Char} {meaning : Char}
    (hunit : StringUnit p meaning q) :
    t.NothingBeyond g.strings.state (p ++ q) p.length := by
  have hescapes : ∀ escape ∈ Grammar.stringEscapes, escaped? escape.1 = some escape.2 := by decide
  refine h.fixedOrAny.nothingBeyond (List.forall_mem_cons.2 ⟨?_, fun text htext hbegins => ?_⟩) ?_
  · cases hunit with
    | escape => exact fun _ => Nat.le_succ 1
    | char => exact fun _ => Nat.le_refl 1
  · obtain ⟨escape, hescape, rfl⟩ := List.mem_map.1 htext
    cases hunit with
    | escape => exact Nat.le_refl 2
    | char hquote hnone =>
      -- the backslash and what is behind it would be a longer unit
      obtain ⟨rest, hrest⟩ := hbegins
      obtain ⟨rfl, rfl⟩ := List.cons.inj hrest
      have hunescaped := hnone rfl escape.1 rfl
      rw [hescapes escape hescape] at hunescaped
      cases hunescaped
  · cases hunit with
    | escape => exact fun _ => Nat.le_succ 1
    | char => exact fun _ => Nat.le_refl 1

end Quotes

/-! ### From the opening quote to the closing one -/

/-- Inside of a literal the run goes as the scanner does on the text. -/
def ReadsString (g : Layers π) (l : Lexer Token π) (text : List Char) :
    Option ScannedString → Prop
  | some lit => ∀ payloads place, ∃ later,
      l.Leads ⟨g.strings.state, payloads, place, text⟩
        [.emit (stringToken (g.strings.read payloads) lit (place.advanceBy lit.body))]
        ⟨g.main, later, place.advanceBy lit.body, lit.rest⟩
  | none => ∀ payloads place,
      l.Fails ⟨g.strings.state, payloads, place, text⟩ (.deadEnd (place.advanceBy text) "")

namespace Quotes

variable {p q : List Char} {meaning : Char}

theorem reads_end (h : g.Quotes l.rules) (hmax : l.config.maxMatch = none) :
    g.ReadsString l [] none := h.fixedOrAny.fails_at_end hmax

theorem reads_close (h : g.Quotes l.rules) (hmax : l.config.maxMatch = none) (rest : List Char) :
    g.ReadsString l ('"' :: rest) (some ⟨[], ['"'], rest⟩) := by
  intro payloads place
  have hfirst : l.rules.First g.strings.state (symbols ['"']) g.closeRule :=
    ⟨[], _, h.inside, symbols_mem_lit.2 rfl, fun _ hmem => nomatch hmem⟩
  have hbeyond : l.rules.NothingBeyond g.strings.state (['"'] ++ rest) 1 := by
    refine h.fixedOrAny.nothingBeyond (List.forall_mem_cons.2 ⟨fun _ => Nat.le_refl 1, ?_⟩)
      fun _ => Nat.le_refl 1
    rintro text htext ⟨more, hmore⟩
    obtain ⟨escape, -, rfl⟩ := List.mem_map.1 htext
    cases (List.cons.inj hmore).1
  have htoken : ∀ read stop, stringToken read ⟨[], ['"'], rest⟩ stop =
      ⟨.string (String.ofList read.value), String.ofList (read.lexeme ++ ['"']),
        ⟨read.start, stop⟩⟩ := by
    intro read stop
    rw [stringToken, List.append_nil]
  simp only [htoken]
  exact ⟨_, Lexer.leads_of_first hmax (List.cons_ne_nil _ _) hfirst hbeyond
    (g.strings.perform_update rfl)⟩

theorem reads_unit (h : g.Quotes l.rules) (hmax : l.config.maxMatch = none)
    (hunit : StringUnit p meaning q) {scan : Option ScannedString}
    (hlater : g.ReadsString l q scan) :
    g.ReadsString l (p ++ q) (scan.map (.push meaning p)) := by
  have hne : p ≠ [] := by
    cases hunit with
    | escape => exact List.cons_ne_nil _ _
    | char => exact List.cons_ne_nil _ _
  obtain ⟨pattern, f, hfirst, hf⟩ := h.first_unit hunit
  have hgrow : ∀ payloads place, ∃ grown,
      l.Leads ⟨g.strings.state, payloads, place, p ++ q⟩ []
        ⟨g.strings.state, grown, place.advanceBy p, q⟩ ∧
      g.strings.read grown =
        ⟨(g.strings.read payloads).start, (g.strings.read payloads).value ++ [meaning],
          (g.strings.read payloads).lexeme ++ p⟩ := by
    intro payloads place
    refine ⟨_, Lexer.leads_of_first hmax hne hfirst (h.nothingBeyond_unit hunit)
      (g.strings.perform_update (m := ⟨p, ⟨place, place.advanceBy p⟩⟩) rfl), ?_⟩
    rw [Slot.read_set _ (g.unwrap_wrap _), hf]
  cases scan with
  | none =>
    intro payloads place
    obtain ⟨grown, hleads, -⟩ := hgrow payloads place
    rw [Position.advanceBy_append]
    exact hleads.fails (hlater grown (place.advanceBy p))
  | some lit =>
    intro payloads place
    obtain ⟨grown, hleads, hread⟩ := hgrow payloads place
    obtain ⟨later, hclose⟩ := hlater grown (place.advanceBy p)
    refine ⟨later, ?_⟩
    have htoken : ∀ stop, stringToken (g.strings.read grown) lit stop =
        stringToken (g.strings.read payloads) (lit.push meaning p) stop := by
      intro stop
      rw [stringToken, stringToken, hread, ScannedString.push, List.append_assoc,
        List.append_assoc, List.singleton_append]
    rw [ScannedString.push, Position.advanceBy_append]
    rw [htoken] at hclose
    exact hleads.trans hclose

theorem reads (h : g.Quotes l.rules) (hmax : l.config.maxMatch = none) (text : List Char) :
    g.ReadsString l text (scanString text) := by
  induction text using scanString_induction with
  | ends => exact h.reads_end hmax
  | closes rest => exact h.reads_close hmax rest
  | unit p meaning q hunit ih => exact h.reads_unit hmax hunit ih

end Quotes

end Layers

/-! ### Literals in a text -/

section

variable {π : Type} {g : Layers π} {l : Lexer Token π}

/-- A grammar reads string literals as the scanner does: a literal that is closed yields its token,
and lexing goes on behind it in the main state; one that is not closed is an error at the end of the
text; and a literal that is written for a value yields that value. -/
structure DecodesStrings (l : Lexer Token π) (tokenize : String → Except LexError (List Token)) :
    Prop where
  runs : ∀ source : String, tokenize source = l.tokenize source.toList
  closed : ∀ {source : String} {payloads : Payloads π} {place : Position} {items : List Token}
      {text : List Char} {lit : ScannedString},
    l.Begins source.toList RuleTable.initial payloads place items →
    source.toList.drop place.offset = '"' :: text → scanString text = some lit →
    ∃ later, l.Begins source.toList RuleTable.initial later (place.advanceBy ('"' :: lit.body))
        (items ++ [⟨.string (String.ofList lit.value), String.ofList ('"' :: lit.body),
          ⟨place, place.advanceBy ('"' :: lit.body)⟩⟩]) ∧
      source.toList.drop (place.advanceBy ('"' :: lit.body)).offset = lit.rest
  unclosed : ∀ {source : String} {payloads : Payloads π} {place : Position} {items : List Token}
      {text : List Char},
    l.Begins source.toList RuleTable.initial payloads place items →
    source.toList.drop place.offset = '"' :: text → scanString text = none →
    tokenize source = .error (.deadEnd (Position.start.advanceBy source.toList) "")
  written : ∀ value : String, tokenize (writeString value) =
    .ok [⟨.string value, writeString value,
      ⟨.start, Position.start.advanceBy (writeString value).toList⟩⟩]

namespace Layers.Quotes

variable {source : List Char} {payloads : Payloads π} {place : Position} {items : List Token}
  {text : List Char} {lit : ScannedString}

theorem leads_open (h : g.Quotes l.rules) (hmax : l.config.maxMatch = none)
    (payloads : Payloads π) (place : Position) (text : List Char) :
    ∃ opened, l.Leads ⟨g.main, payloads, place, '"' :: text⟩ []
        ⟨g.strings.state, opened, place.advanceBy ['"'], text⟩ ∧
      g.strings.read opened = ⟨place, [], ['"']⟩ :=
  ⟨_, Lexer.leads_of_first hmax (List.cons_ne_nil _ _) h.opens
    (RuleTable.nothingBeyond_of_noneLonger h.alone text) rfl,
    Slot.read_set _ (g.unwrap_wrap _) payloads⟩

theorem begins_behind (h : g.Quotes l.rules) (hlexes : g.Lexes l)
    (hbegins : l.Begins source g.main payloads place items)
    (htext : source.drop place.offset = '"' :: text) (hscan : scanString text = some lit) :
    ∃ later, l.Begins source g.main later (place.advanceBy ('"' :: lit.body))
        (items ++ [⟨.string (String.ofList lit.value), String.ofList ('"' :: lit.body),
          ⟨place, place.advanceBy ('"' :: lit.body)⟩⟩]) ∧
      source.drop (place.advanceBy ('"' :: lit.body)).offset = lit.rest := by
  obtain ⟨opened, hopen, hread⟩ := h.leads_open hlexes.maxMatch payloads place text
  have hreads := h.reads hlexes.maxMatch text
  rw [hscan] at hreads
  obtain ⟨later, hleads⟩ := hreads opened (place.advanceBy ['"'])
  refine ⟨later, ?_, ?_⟩
  · rw [hread] at hleads
    have hbegins' := hbegins.leads hlexes.closesAtEnd (htext ▸ hopen.trans hleads)
    exact hbegins'
  · refine Position.drop_advanceBy ?_
    rw [htext, ← scanString_append hscan]
    rfl

theorem tokenize_of_unclosed (h : g.Quotes l.rules) (hlexes : g.Lexes l)
    (hbegins : l.Begins source g.main payloads place items)
    (htext : source.drop place.offset = '"' :: text) (hscan : scanString text = none) :
    l.tokenize source = .error (.deadEnd (Position.start.advanceBy source) "") := by
  obtain ⟨opened, hopen, -⟩ := h.leads_open hlexes.maxMatch payloads place text
  have hreads := h.reads hlexes.maxMatch text
  rw [hscan] at hreads
  have hfails := hopen.fails (hreads opened (place.advanceBy ['"']))
  rw [← Position.advanceBy_append] at hfails
  exact hbegins.tokenize_of_fails_at_end htext hfails

theorem decodesStrings (h : g.Quotes l.rules) (hlexes : g.Lexes l)
    {tokenize : String → Except LexError (List Token)}
    (hruns : ∀ source : String, tokenize source = l.tokenize source.toList) :
    DecodesStrings l tokenize where
  runs := hruns
  closed := by
    rw [← hlexes.main_eq]
    exact h.begins_behind hlexes
  unclosed := by
    intro source payloads place items text hbegins htext hscan
    rw [hruns]
    rw [← hlexes.main_eq] at hbegins
    exact h.tokenize_of_unclosed hlexes hbegins htext hscan
  written := by
    intro value
    have hsource : (writeString value).toList =
        '"' :: (value.toList.flatMap writeChar ++ '"' :: []) := String.toList_ofList
    have hbegins := Lexer.Begins.start l (writeString value).toList
    rw [← hlexes.main_eq] at hbegins
    obtain ⟨later, hbegins', hrest⟩ := h.begins_behind hlexes hbegins hsource
      (scanString_written value.toList [])
    rw [hruns, hlexes.tokenize_eq hbegins' hrest, List.nil_append, String.ofList_toList, hsource]
    rfl

end Layers.Quotes

end

theorem KLisp.quotes : layers.Quotes rules where
  opens := RuleTable.first_of_getElem? 0 rfl (symbols_mem_lit.2 rfl) rfl
  alone := by decide +kernel
  inside := rfl

theorem Scheme.quotes : layers.Quotes rules where
  opens := RuleTable.first_of_getElem? 1 rfl (symbols_mem_lit.2 rfl) (by decide +kernel)
  alone := by decide +kernel
  inside := rfl

namespace Grammar

/-- Both grammars decode string literals. -/
theorem strings_decode : DecodesStrings KLisp.standard KLisp.tokenize ∧
    DecodesStrings Scheme.standard Scheme.tokenize :=
  ⟨KLisp.quotes.decodesStrings KLisp.lexes KLisp.tokenize_eq,
    Scheme.quotes.decodesStrings Scheme.lexes Scheme.tokenize_eq⟩

/-- A backslash before a closing quote, first one that is escaped itself and then one that escapes
the quote, so that the literal is not closed; and a value with everything that is escaped. -/
theorem strings_decode_sample :
    (∃ later, KLisp.standard.Begins "\"a\\\\\" b".toList RuleTable.initial later ⟨5, 1, 6⟩
      [⟨.string "a\\", "\"a\\\\\"", ⟨⟨0, 1, 1⟩, ⟨5, 1, 6⟩⟩⟩]) ∧
    Scheme.tokenize "\"a\\\" b" = .error (.deadEnd ⟨6, 1, 7⟩ "") ∧
    KLisp.tokenize (writeString "\\\"\n\t") =
      .ok [⟨.string "\\\"\n\t", "\"\\\\\\\"\\n\\t\"", ⟨⟨0, 1, 1⟩, ⟨10, 1, 11⟩⟩⟩] := by
  refine ⟨?_, ?_, ?_⟩
  · have htext : "\"a\\\\\" b".toList.drop Position.start.offset =
        '"' :: ['a', '\\', '\\', '"', ' ', 'b'] := by decide +kernel
    have hscan : scanString ['a', '\\', '\\', '"', ' ', 'b'] =
        some ⟨['a', '\\'], ['a', '\\', '\\', '"'], [' ', 'b']⟩ := by decide
    obtain ⟨later, hbegins, -⟩ :=
      strings_decode.1.closed (Lexer.Begins.start KLisp.standard _) htext hscan
    exact ⟨later, hbegins⟩
  · have htext : "\"a\\\" b".toList.drop Position.start.offset =
        '"' :: ['a', '\\', '"', ' ', 'b'] := by decide +kernel
    have hscan : scanString ['a', '\\', '"', ' ', 'b'] = none := by decide
    rw [strings_decode.2.unclosed (Lexer.Begins.start Scheme.standard _) htext hscan]
    decide +kernel
  · rw [strings_decode.1.written]
    decide +kernel

end Grammar

end DerivativeLexer
