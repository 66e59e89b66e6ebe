import DerivativeLexer.Proofs.Grammar.Resumption

/-! # Block comments nest

The text behind a `#!` is read by a scanner that counts: an opener adds one, a closer takes one
away, and any other character is passed over, until nothing is open. Scheme passes over a block
comment as the scanner does. The depth that its table keeps is the number of comments that are
open, so it is never zero where a closer could take one away. -/

namespace DerivativeLexer

open DerivativeLexer.Language

/-! ### The scanner -/

/-- The characters up to and with the closer that closes everything that is open, and the text
behind them. -/
structure ScannedBlock where
  body : List Char
  rest : List Char
deriving DecidableEq

def ScannedBlock.push (unit : List Char) (block : ScannedBlock) : ScannedBlock :=
  ⟨unit ++ block.body, block.rest⟩

/-- Reads on, with so many comments open, until none is. -/
def scanBlock : Nat → List Char → Option ScannedBlock
  | 0, text => some ⟨[], text⟩
  | _ + 1, [] => none
  | depth + 1, '#' :: '!' :: rest => (scanBlock (depth + 2) rest).map (.push ['#', '!'])
  | depth + 1, '!' :: '#' :: rest => (scanBlock depth rest).map (.push ['!', '#'])
  | depth + 1, c :: rest => (scanBlock (depth + 1) rest).map (.push [c])

/-- An opener, a closer or any other character, with the text behind it, and how many comments are
open before it and after it. -/
inductive BlockUnit : Nat → List Char → Nat → List Char → Prop
  | opener {depth : Nat} {rest : List Char} : BlockUnit (depth + 1) ['#', '!'] (depth + 2) rest
  | closer {depth : Nat} {rest : List Char} : BlockUnit (depth + 1) ['!', '#'] depth rest
  | char {depth : Nat} {c : Char} {rest : List Char} (hopen : ¬['#', '!'] <+: c :: rest)
      (hclose : ¬['!', '#'] <+: c :: rest) : BlockUnit (depth + 1) [c] (depth + 1) rest

section

variable {before after : Nat} {p q text : List Char} {block : ScannedBlock}

theorem scanBlock_unit (h : BlockUnit before p after q) :
    scanBlock before (p ++ q) = (scanBlock after q).map (.push p) := by
  cases h with
  | opener => rfl
  | closer => rfl
  | char hopen hclose =>
    rw [List.singleton_append, scanBlock]
    · rintro rest rfl rfl
      exact hopen ⟨rest, rfl⟩
    · rintro rest rfl rfl
      exact hclose ⟨rest, rfl⟩

/-- Nothing is open any more, or the text comes to its end, or it begins with a unit. -/
theorem scanBlock_induction {P : Nat → List Char → Option ScannedBlock → Prop}
    (done : ∀ text, P 0 text (some ⟨[], text⟩)) (ends : ∀ depth, P (depth + 1) [] none)
    (unit : ∀ before p after q, BlockUnit before p after q → P after q (scanBlock after q) →
      P before (p ++ q) ((scanBlock after q).map (.push p))) (depth : Nat) (text : List Char) :
    P depth text (scanBlock depth text) := by
  induction depth, text using scanBlock.induct with
  | case1 text =>
    rw [scanBlock]
    exact done text
  | case2 depth => exact ends depth
  | case3 depth rest ih => exact unit _ _ _ _ .opener ih
  | case4 depth rest ih => exact unit _ _ _ _ .closer ih
  | case5 depth c rest hopen hclose ih =>
    have hunit : BlockUnit (depth + 1) [c] (depth + 1) rest := by
      refine .char ?_ ?_
      · rintro ⟨more, hmore⟩
        obtain ⟨rfl, rfl⟩ := List.cons.inj hmore
        exact hopen more rfl rfl
      · rintro ⟨more, hmore⟩
        obtain ⟨rfl, rfl⟩ := List.cons.inj hmore
        exact hclose more rfl rfl
    have hscan := unit _ _ _ _ hunit ih
    rwa [← scanBlock_unit hunit] at hscan

theorem scanBlock_append {depth : Nat} (h : scanBlock depth text = some block) :
    block.body ++ block.rest = text := by
  induction depth, text using scanBlock_induction generalizing block with
  | done text =>
    obtain rfl := Option.some.inj h
    rfl
  | ends depth => cases h
  | unit before p after q hunit ih =>
    obtain ⟨inner, hinner, rfl⟩ := Option.map_eq_some_iff.1 h
    rw [← ih hinner]
    exact List.append_assoc p inner.body inner.rest

end

/-! ### The rules inside of a block comment -/

namespace Scheme

def block : StateId := ⟨1⟩

/-- The depth of the block comment that is being read. -/
def depthSlot : Slot Payload Nat := ⟨block, 0, .depth, Payload.depth?⟩

/-- The depth is kept in the slot as long as something is open. -/
def Holds (payloads : Payloads Payload) (depth : Nat) : Prop :=
  depth ≠ 0 → depthSlot.read payloads = depth

/-- Where lexing stands with so many comments open. -/
def stateAt : Nat → StateId
  | 0 => RuleTable.initial
  | _ + 1 => block

theorem rules_block : rules.rules block =
    [⟨lit "#!", depthSlot.update (openBlock block)⟩, ⟨anyChar, pure block⟩,
      ⟨lit "!#", depthSlot.update (closeBlock RuleTable.initial block)⟩] := rfl

theorem fixedOrAny_block : rules.FixedOrAny block [['#', '!'], ['!', '#']] := by
  rw [RuleTable.FixedOrAny, rules_block, List.forall_mem_cons, List.forall_mem_cons,
    List.forall_mem_singleton]
  refine ⟨.inl ⟨_, List.mem_cons_self, words_text ['#', '!']⟩, .inr rfl,
    .inl ⟨_, List.mem_cons_of_mem _ (List.mem_singleton_self _), words_text ['!', '#']⟩⟩

theorem holds_set (payloads : Payloads Payload) (depth : Nat) :
    Holds (payloads.set block (.depth depth)) depth :=
  fun _ => depthSlot.read_set rfl payloads

section

variable {before after : Nat} {p q : List Char}

theorem nothingBeyond_unit (h : BlockUnit before p after q) :
    rules.NothingBeyond block (p ++ q) p.length := by
  refine fixedOrAny_block.nothingBeyond (List.forall_mem_cons.2 ⟨fun hopens => ?_,
    List.forall_mem_singleton.2 fun hcloses => ?_⟩) fun _ => ?_
  · cases h with
    | opener => exact Nat.le_refl 2
    | closer => exact Nat.le_refl 2
    | char hopen => exact (hopen hopens).elim
  · cases h with
    | opener => exact Nat.le_refl 2
    | closer => exact Nat.le_refl 2
    | char _ hclose => exact (hclose hcloses).elim
  · cases h with
    | opener => exact Nat.le_succ 1
    | closer => exact Nat.le_succ 1
    | char => exact Nat.le_refl 1

/-- What a rule does that replaces the depth. -/
theorem leads_update {pattern : Language} {act : Nat → Act Token Payload (StateId × Nat)}
    {payloads : Payloads Payload} {next : StateId} {depth : Nat} (hne : p ≠ [])
    (hfirst : rules.First block (symbols p) ⟨pattern, depthSlot.update act⟩)
    (hbeyond : rules.NothingBeyond block (p ++ q) p.length)
    (hact : act (depthSlot.read payloads) = pure (next, depth)) (place : Position) :
    standard.Leads ⟨block, payloads, place, p ++ q⟩ []
      ⟨next, (payloads.erase block).set block (.depth depth), place.advanceBy p, q⟩ := by
  have hperform : (depthSlot.update act).perform ⟨p, ⟨place, place.advanceBy p⟩⟩ payloads =
      (next, ⟨[], (payloads.erase block).set block (.depth depth)⟩) :=
    depthSlot.perform_update (by rw [hact]; rfl)
  have hleads := Lexer.leads_of_first (l := standard) rfl hne hfirst hbeyond hperform
  exact hleads

/-- A unit is the match of a rule that keeps the count. -/
theorem leads_unit (h : BlockUnit before p after q) {payloads : Payloads Payload}
    (hholds : Holds payloads before) (place : Position) :
    ∃ later, standard.Leads ⟨block, payloads, place, p ++ q⟩ []
        ⟨stateAt after, later, place.advanceBy p, q⟩ ∧ Holds later after := by
  have hbeyond := nothingBeyond_unit h
  cases h with
  | @opener depth =>
    have hact : openBlock block (depthSlot.read payloads) = pure (block, depth + 2) := by
      rw [hholds (Nat.succ_ne_zero _)]
      rfl
    have hfirst : rules.First block (symbols ['#', '!'])
        ⟨lit "#!", depthSlot.update (openBlock block)⟩ :=
      RuleTable.first_of_getElem? 0 rfl (symbols_mem_lit.2 rfl) rfl
    exact ⟨_, leads_update (List.cons_ne_nil _ _) hfirst hbeyond hact place, holds_set _ _⟩
  | closer =>
    have hfirst : rules.First block (symbols ['!', '#'])
        ⟨lit "!#", depthSlot.update (closeBlock RuleTable.initial block)⟩ :=
      RuleTable.first_of_getElem? 2 rfl (symbols_mem_lit.2 rfl) (by decide +kernel)
    cases after with
    | zero =>
      have hact : closeBlock RuleTable.initial block (depthSlot.read payloads) =
          pure (RuleTable.initial, 1) := by
        rw [hholds (Nat.succ_ne_zero _)]
        exact closeBlock_of_le (Nat.le_refl 1)
      exact ⟨_, leads_update (List.cons_ne_nil _ _) hfirst hbeyond hact place,
        fun h => (h rfl).elim⟩
    | succ depth =>
      have hact : closeBlock RuleTable.initial block (depthSlot.read payloads) =
          pure (block, depth + 1) := by
        rw [hholds (Nat.succ_ne_zero _)]
        exact closeBlock_of_lt (Nat.le_add_left 2 depth)
      exact ⟨_, leads_update (List.cons_ne_nil _ _) hfirst hbeyond hact place, holds_set _ _⟩
  | @char depth c _ hopen hclose =>
    have hfirst : rules.First block (symbols [c]) ⟨anyChar, pure block⟩ := by
      refine ⟨[⟨lit "#!", depthSlot.update (openBlock block)⟩], _, rules_block,
        symbols_mem_anyChar.2 ⟨c, rfl⟩, List.forall_mem_singleton.2 fun hmem => ?_⟩
      cases symbols_mem_lit.1 hmem
    have hperform : (pure block : Act Token Payload StateId).perform
        ⟨[c], ⟨place, place.advanceBy [c]⟩⟩ payloads = (block, ⟨[], payloads⟩) := rfl
    have hleads := Lexer.leads_of_first (l := standard) rfl (List.cons_ne_nil _ _) hfirst hbeyond
      hperform
    exact ⟨payloads, hleads, hholds⟩

end

/-! ### From the first opener to the last closer -/

/-- With so many comments open the run goes as the scanner does on the text. -/
def ReadsBlock (depth : Nat) (text : List Char) : Option ScannedBlock → Prop
  | some block => ∀ payloads place, Holds payloads depth → ∃ later,
      standard.Leads ⟨stateAt depth, payloads, place, text⟩ []
        ⟨RuleTable.initial, later, place.advanceBy block.body, block.rest⟩
  | none => ∀ payloads place, Holds payloads depth →
      standard.Fails ⟨stateAt depth, payloads, place, text⟩ (.deadEnd (place.advanceBy text) "")

theorem reads_end (depth : Nat) : ReadsBlock (depth + 1) [] none :=
  fun payloads place _ => fixedOrAny_block.fails_at_end (l := standard) rfl payloads place

theorem reads_unit {before after : Nat} {p q : List Char} (hunit : BlockUnit before p after q)
    {scan : Option ScannedBlock} (hlater : ReadsBlock after q scan) :
    ReadsBlock before (p ++ q) (scan.map (.push p)) := by
  have hstate : stateAt before = block := by
    cases hunit with
    | opener => rfl
    | closer => rfl
    | char => rfl
  cases scan with
  | none =>
    intro payloads place hholds
    obtain ⟨held, hleads, hheld⟩ := leads_unit hunit hholds place
    rw [hstate, Position.advanceBy_append]
    exact hleads.fails (hlater held _ hheld)
  | some inner =>
    intro payloads place hholds
    obtain ⟨held, hleads, hheld⟩ := leads_unit hunit hholds place
    obtain ⟨later, hrest⟩ := hlater held _ hheld
    rw [hstate, ScannedBlock.push, Position.advanceBy_append]
    exact ⟨later, hleads.trans hrest⟩

theorem reads (depth : Nat) (text : List Char) : ReadsBlock depth text (scanBlock depth text) := by
  induction depth, text using scanBlock_induction with
  | done text => exact fun payloads place _ => ⟨payloads, .refl _⟩
  | ends depth => exact reads_end depth
  | unit before p after q hunit ih => exact reads_unit hunit ih

/-! ### The depth -/

/-- Where the rule of a state goes on inside of a block comment, the depth is not zero. -/
def KeepsDepth (s : StateId) (rule : Rule Token Payload) : Prop :=
  ∀ (m : Matched) (payloads : Payloads Payload), (s = block → 1 ≤ depthSlot.read payloads) →
    (rule.action.perform m payloads).1 = block →
      1 ≤ depthSlot.read (rule.action.perform m payloads).2.payloads

theorem keepsDepth_elsewhere {s t : StateId} {rule : Rule Token Payload} (ht : t ≠ block)
    (hnext : ∀ m payloads, (rule.action.perform m payloads).1 = t) : KeepsDepth s rule :=
  fun m payloads _ hblock => (ht ((hnext m payloads).symm.trans hblock)).elim

theorem keepsDepth_enter (s : StateId) (pattern : Language) :
    KeepsDepth s ⟨pattern, depthSlot.enter 1⟩ :=
  fun _ payloads _ _ => Nat.le_of_eq (depthSlot.read_set rfl payloads).symm

theorem keepsDepth_open (pattern : Language) :
    KeepsDepth block ⟨pattern, depthSlot.update (openBlock block)⟩ := by
  intro m payloads _ _
  rw [depthSlot.perform_update rfl, depthSlot.read_set rfl]
  exact Nat.le_add_left 1 _

theorem keepsDepth_close (pattern : Language) :
    KeepsDepth block ⟨pattern, depthSlot.update (closeBlock RuleTable.initial block)⟩ := by
  intro m payloads _ hnext
  rcases Nat.lt_or_ge 1 (depthSlot.read payloads) with hmore | hlast
  case inr =>
    -- the last comment is closed, and the rule goes on in the main state
    rw [depthSlot.perform_update (by rw [closeBlock_of_le hlast]; rfl)] at hnext
    cases hnext
  case inl =>
    rw [depthSlot.perform_update (by rw [closeBlock_of_lt hmore]; rfl), depthSlot.read_set rfl]
    omega

theorem keepsDepth (s : StateId) : ∀ rule ∈ rules.rules s, KeepsDepth s rule := by
  have hmain : RuleTable.initial ≠ block := by decide
  have hstrings : layers.strings.state ≠ block := by decide
  obtain ⟨_ | _ | _ | n⟩ := s
  · refine List.forall_mem_cons.2 ⟨keepsDepth_enter _ _, ?_⟩
    refine List.forall_mem_cons.2 ⟨keepsDepth_elsewhere hstrings fun _ _ => rfl, ?_⟩
    iterate 19 refine List.forall_mem_cons.2 ⟨keepsDepth_elsewhere hmain fun _ _ => rfl, ?_⟩
    exact List.forall_mem_singleton.2 (keepsDepth_elsewhere hmain fun _ _ => rfl)
  · refine List.forall_mem_cons.2 ⟨keepsDepth_open _, ?_⟩
    refine List.forall_mem_cons.2 ⟨fun _ _ h _ => h rfl, ?_⟩
    exact List.forall_mem_singleton.2 (keepsDepth_close _)
  · refine List.forall_mem_cons.2 ⟨keepsDepth_elsewhere hmain fun _ _ => rfl, ?_⟩
    iterate 4 refine List.forall_mem_cons.2 ⟨keepsDepth_elsewhere hstrings fun _ _ => rfl, ?_⟩
    exact List.forall_mem_singleton.2 (keepsDepth_elsewhere hstrings fun _ _ => rfl)
  · exact fun _ h => nomatch h

/-- Whatever an engine with this table has read, and however its input came, something is open when
it is inside of a block comment. -/
theorem depth_pos {l : Lexer Token Payload} (hrules : l.rules = rules) {k : Nat}
    {moves : List (Move Token Payload)} {e : Engine Payload} {f : Feed Char}
    (h : Course l k moves (some e) f) (hblock : e.matching.origin = block) :
    1 ≤ depthSlot.read e.payloads := by
  have hinvariant := h.invariant (P := fun s payloads => s = block → 1 ≤ depthSlot.read payloads)
    (fun hinitial => nomatch hinitial)
    (fun s rule hrule m payloads hbefore hnext => keepsDepth s rule (hrules ▸ hrule) m payloads
      hbefore hnext)
  exact hinvariant e rfl hblock

end Scheme

/-! ### Block comments in a text -/

namespace Scheme

/-- Block comments are passed over as the scanner does: one that is closed yields no token, and
lexing goes on behind it in the main state; one that is not closed is an error at the end of the
text. The depth is at least one wherever a match begins inside of a block comment, in whatever
pieces the text is read. -/
structure NestsBlocks : Prop where
  runs : ∀ source : String, tokenize source = standard.tokenize source.toList
  closed : ∀ {source : String} {payloads : Payloads Payload} {place : Position}
      {items : List Token} {text : List Char} {block : ScannedBlock},
    standard.Begins source.toList RuleTable.initial payloads place items →
    source.toList.drop place.offset = '#' :: '!' :: text → scanBlock 1 text = some block →
    ∃ later, standard.Begins source.toList RuleTable.initial later
        (place.advanceBy ('#' :: '!' :: block.body)) items ∧
      source.toList.drop (place.advanceBy ('#' :: '!' :: block.body)).offset = block.rest
  unclosed : ∀ {source : String} {payloads : Payloads Payload} {place : Position}
      {items : List Token} {text : List Char},
    standard.Begins source.toList RuleTable.initial payloads place items →
    source.toList.drop place.offset = '#' :: '!' :: text → scanBlock 1 text = none →
    tokenize source = .error (.deadEnd (Position.start.advanceBy source.toList) "")
  depth_pos : ∀ {source : String} {payloads : Payloads Payload} {place : Position}
      {items : List Token}, standard.Begins source.toList block payloads place items →
    1 ≤ depthSlot.read payloads
  depth_pos_of_course : ∀ {l : Lexer Token Payload} {k : Nat} {moves : List (Move Token Payload)}
      {e : Engine Payload} {f : Feed Char}, l.rules = rules → Course l k moves (some e) f →
    e.matching.origin = block → 1 ≤ depthSlot.read e.payloads

section

variable {source : List Char} {payloads : Payloads Payload} {place : Position}
  {items : List Token} {text : List Char} {scanned : ScannedBlock}

theorem leads_enter (payloads : Payloads Payload) (place : Position) (text : List Char) :
    ∃ entered, standard.Leads ⟨RuleTable.initial, payloads, place, '#' :: '!' :: text⟩ []
        ⟨block, entered, place.advanceBy ['#', '!'], text⟩ ∧ Holds entered 1 := by
  have hfirst : standard.rules.First RuleTable.initial (symbols ['#', '!'])
      ⟨lit "#!", depthSlot.enter 1⟩ :=
    RuleTable.first_of_getElem? 0 rfl (symbols_mem_lit.2 rfl) rfl
  have halone : standard.rules.noneLonger RuleTable.initial ['#', '!'] = true := by decide +kernel
  have hperform : (depthSlot.enter 1 : Act Token Payload StateId).perform
      ⟨['#', '!'], ⟨place, place.advanceBy ['#', '!']⟩⟩ payloads =
        (block, ⟨[], payloads.set block (.depth 1)⟩) := rfl
  have hleads := Lexer.leads_of_first rfl (List.cons_ne_nil _ _) hfirst
    (RuleTable.nothingBeyond_of_noneLonger halone text) hperform
  exact ⟨_, hleads, holds_set _ _⟩

theorem begins_behind_block
    (hbegins : standard.Begins source RuleTable.initial payloads place items)
    (htext : source.drop place.offset = '#' :: '!' :: text)
    (hscan : scanBlock 1 text = some scanned) :
    ∃ later, standard.Begins source RuleTable.initial later
        (place.advanceBy ('#' :: '!' :: scanned.body)) items ∧
      source.drop (place.advanceBy ('#' :: '!' :: scanned.body)).offset = scanned.rest := by
  obtain ⟨entered, henter, hholds⟩ := leads_enter payloads place text
  have hreads := reads 1 text
  rw [hscan] at hreads
  obtain ⟨later, hleads⟩ := hreads entered _ hholds
  refine ⟨later, ?_, ?_⟩
  · have hbegins' := hbegins.leads lexes.closesAtEnd (htext ▸ henter.trans hleads)
    have hitems : items ++ Effect.emitted ([] ++ []) = items := List.append_nil items
    rwa [hitems] at hbegins'
  · refine Position.drop_advanceBy ?_
    rw [htext, ← scanBlock_append hscan]
    rfl

theorem tokenize_of_unclosed_block
    (hbegins : standard.Begins source RuleTable.initial payloads place items)
    (htext : source.drop place.offset = '#' :: '!' :: text) (hscan : scanBlock 1 text = none) :
    standard.tokenize source = .error (.deadEnd (Position.start.advanceBy source) "") := by
  obtain ⟨entered, henter, hholds⟩ := leads_enter payloads place text
  have hreads := reads 1 text
  rw [hscan] at hreads
  have hfails := henter.fails (hreads entered _ hholds)
  rw [← Position.advanceBy_append] at hfails
  exact hbegins.tokenize_of_fails_at_end htext hfails

end

/-- Block comments nest. -/
theorem blocks_nest : NestsBlocks where
  runs := tokenize_eq
  closed := begins_behind_block
  unclosed := by
    intro source payloads place items text hbegins htext hscan
    rw [tokenize_eq]
    exact tokenize_of_unclosed_block hbegins htext hscan
  depth_pos := by
    rintro source payloads place items ⟨n, hbegins, rfl, -⟩
    obtain ⟨moves, hcourse⟩ := SoloRun.course standard source.toList n hbegins.live
    exact depth_pos rfl hcourse (by rw [hbegins.matching_eq]; rfl)
  depth_pos_of_course := fun hrules hcourse hblock => depth_pos hrules hcourse hblock

/-- A comment inside of a comment, with a mark before the closer that belongs to none; an opener
with such a mark behind it, which closes nothing; and the depth behind an opener. -/
theorem blocks_nest_sample :
    (∃ later, standard.Begins "#!a#!\n!#!!# (".toList RuleTable.initial later ⟨11, 2, 6⟩ []) ∧
    tokenize "#!#!#" = .error (.deadEnd ⟨5, 1, 6⟩ "") ∧
    ∃ payloads, standard.Begins "#!a".toList block payloads ⟨2, 1, 3⟩ [] ∧
      1 ≤ depthSlot.read payloads := by
  refine ⟨?_, ?_, ?_⟩
  · have htext : "#!a#!\n!#!!# (".toList.drop Position.start.offset =
        '#' :: '!' :: ['a', '#', '!', '\n', '!', '#', '!', '!', '#', ' ', '('] := by
      decide +kernel
    have hscan : scanBlock 1 ['a', '#', '!', '\n', '!', '#', '!', '!', '#', ' ', '('] =
        some ⟨['a', '#', '!', '\n', '!', '#', '!', '!', '#'], [' ', '(']⟩ := by decide
    obtain ⟨later, hbegins, -⟩ := blocks_nest.closed (Lexer.Begins.start standard _) htext hscan
    exact ⟨later, hbegins⟩
  · have htext : "#!#!#".toList.drop Position.start.offset = '#' :: '!' :: ['#', '!', '#'] := by
      decide +kernel
    have hscan : scanBlock 1 ['#', '!', '#'] = none := by decide
    rw [blocks_nest.unclosed (Lexer.Begins.start standard _) htext hscan]
    decide +kernel
  · have hbegins : standard.Begins "#!a".toList block
        ((SoloRun.start standard "#!a".toList).run standard 3).engine.payloads ⟨2, 1, 3⟩ [] :=
      ⟨3, ⟨by decide +kernel, by decide +kernel, by decide +kernel⟩, rfl, by decide +kernel⟩
    exact ⟨_, hbegins, blocks_nest.depth_pos hbegins⟩

end Scheme

end DerivativeLexer
