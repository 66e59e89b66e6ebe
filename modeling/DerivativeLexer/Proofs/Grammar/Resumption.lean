import DerivativeLexer.Proofs.Grammar.Closing
import DerivativeLexer.Proofs.Grammar.Lossless
import DerivativeLexer.Proofs.Lexer.Beginnings

/-! # Lexing with the grammars from match to match

Only the end of a text closes the output. So what is emitted on the way from the beginning of one
match to that of another is added to the tokens, and where nothing is left in the main state the
tokens so far are the result. Inside of string literals and of block comments the rules have one
shape: there are some fixed texts, and a rule for any single character. -/

namespace DerivativeLexer

open DerivativeLexer.Language

variable {τ π : Type}

/-! ### The lexers -/

theorem Lexer.build_eq {rules : RuleTable τ π} (h : rules.firstNullable? = none)
    (config : LexerConfig) : build rules config = .ok ⟨rules, config, h⟩ := by
  rw [build]
  split
  · rfl
  · rename_i h'
    cases h.symm.trans h'

theorem KLisp.firstNullable?_rules : rules.firstNullable? = none :=
  Option.isNone_iff_eq_none.1 (by decide +kernel)

def KLisp.standard : Lexer Token StringBody := ⟨rules, .standard, firstNullable?_rules⟩

theorem KLisp.tokenize_eq (source : String) :
    tokenize source = standard.tokenize source.toList := by
  have hlexer : lexer .standard = .ok standard := Lexer.build_eq firstNullable?_rules _
  rw [tokenize, hlexer]
  rfl

theorem Scheme.firstNullable?_rules : rules.firstNullable? = none :=
  Option.isNone_iff_eq_none.1 (by decide +kernel)

def Scheme.standard : Lexer Token Payload := ⟨rules, .standard, firstNullable?_rules⟩

theorem Scheme.tokenize_eq (source : String) :
    tokenize source = standard.tokenize source.toList := by
  have hlexer : lexer .standard = .ok standard := Lexer.build_eq firstNullable?_rules _
  rw [tokenize, hlexer]
  rfl

/-! ### The output -/

namespace SoloRun

variable {l : Lexer τ π} {r : SoloRun τ π}

theorem closed_applyEffects {out : Source τ} (hopen : out.closed = false)
    {effects : List (Effect τ)} (h : .close ∉ effects) :
    (applyEffects out effects).closed = false := by
  induction effects generalizing out with
  | nil => exact hopen
  | cons effect later ih =>
    rw [List.mem_cons, not_or] at h
    refine ih ?_ h.2
    cases effect with
    | emit item => exact (Source.closed_push out [item]).trans hopen
    | close => exact (h.1 rfl).elim
    | request r => exact hopen

theorem step_open (hall : l.rules.All RuleTable.ClosesAtEnd) (hplaced : r.Placed l)
    (hlive : r.status.isLive = true) (hopen : r.output.closed = false)
    (hlater : (r.step l).status.isLive = true) : (r.step l).output.closed = false := by
  obtain ⟨read, ahead, htracks⟩ := hplaced hlive
  rw [step] at hlater ⊢
  cases hmove : r.engine.move l.rules l.config r.feed with
  | rest => exact hopen
  | read e f => exact hopen
  | fire firing e replays =>
    exact closed_applyEffects hopen (Engine.close_not_mem_of_fire hall htracks hmove)
  | last firing e =>
    rw [hmove] at hlater
    cases hlater
  | fail error f =>
    rw [hmove] at hlater
    cases hlater

/-- As long as the run is live, its output is open. -/
theorem run_open (hall : l.rules.All RuleTable.ClosesAtEnd) (hplaced : r.Placed l)
    (hopen : r.output.closed = false) (n : Nat) (hlive : (r.run l n).status.isLive = true) :
    (r.run l n).output.closed = false := by
  induction n generalizing r with
  | zero => exact hopen
  | succ n ih =>
    cases hnow : r.status.isLive with
    | false =>
      rw [run_of_stopped hnow] at hlive ⊢
      exact hopen
    | true =>
      rw [run_succ hnow] at hlive ⊢
      cases hnext : (r.step l).status.isLive with
      | false =>
        rw [run_of_stopped hnext, hnext] at hlive
        cases hlive
      | true => exact ih (hplaced.step hnow) (step_open hall hplaced hnow hopen hnext) hlive

end SoloRun

/-- What is emitted on the way from one match to another is added to the items. -/
theorem Lexer.Begins.leads {l : Lexer τ π} (hall : l.rules.All RuleTable.ClosesAtEnd)
    {source : List Char} {s : StateId} {payloads : Payloads π} {place : Position} {items : List τ}
    (h : l.Begins source s payloads place items) {effects : List (Effect τ)} {m : MatchStart π}
    (hleads : l.Leads ⟨s, payloads, place, source.drop place.offset⟩ effects m) :
    l.Begins source m.state m.payloads m.place (items ++ Effect.emitted effects) := by
  obtain ⟨n, hbefore, hitems⟩ := h.exists_before
  have hopen := SoloRun.run_open hall (SoloRun.placed_start l source) rfl n hbefore.live
  obtain ⟨k, hbefore', houtput⟩ := hleads _ hbefore
  rw [← SoloRun.run_add] at hbefore' houtput
  have hbegins := Lexer.begins_of_before hbefore'
  rwa [houtput, SoloRun.queue_applyEffects, if_neg (by rw [hopen]; decide), hitems] at hbegins

namespace Layers

/-- The lexer of a grammar: it has no limit on matches, only the end of the input closes the output,
and in the main state it is the last match. -/
structure Lexes (g : Layers π) (l : Lexer Token π) : Prop where
  maxMatch : l.config.maxMatch = none
  closesAtEnd : l.rules.All RuleTable.ClosesAtEnd
  main_eq : g.main = RuleTable.initial
  ends : l.rules.First g.main [.endMark] ⟨.endOfInput, do Act.close; pure g.main⟩

/-- Where nothing is left in the main state, lexing comes to its end. -/
theorem Lexes.tokenize_eq {g : Layers π} {l : Lexer Token π} (hlexes : g.Lexes l)
    {source : List Char} {payloads : Payloads π} {place : Position} {items : List Token}
    (h : l.Begins source g.main payloads place items) (hrest : source.drop place.offset = []) :
    l.tokenize source = .ok items := by
  obtain ⟨n, hbefore, hitems⟩ := h.exists_before
  have hopen :=
    SoloRun.run_open hlexes.closesAtEnd (SoloRun.placed_start l source) rfl n hbefore.live
  rw [hrest] at hbefore
  obtain ⟨k, hstatus, houtput⟩ := hbefore.ends hlexes.maxMatch hlexes.ends rfl
  rw [← SoloRun.run_add] at hstatus houtput
  have hrun : (SoloRun.start l source).run l (n + k) = l.lastRun source :=
    Lexer.run_eq_lastRun (by rw [hstatus]; rfl)
  have hqueue : (l.lastRun source).output.queue = items := by
    rw [← hrun, houtput]
    refine (SoloRun.queue_applyEffects _ _).trans ?_
    rw [if_neg (by rw [hopen]; decide), hitems]
    exact List.append_nil items
  rw [hrun] at hstatus
  rw [Lexer.tokenize, hstatus]
  exact congrArg Except.ok hqueue

end Layers

theorem KLisp.lexes : layers.Lexes standard where
  maxMatch := rfl
  closesAtEnd := closesAtEnd
  main_eq := rfl
  ends := RuleTable.first_of_getElem? 5 rfl rfl (by decide +kernel)

theorem Scheme.lexes : layers.Lexes standard where
  maxMatch := rfl
  closesAtEnd := closesAtEnd
  main_eq := rfl
  ends := RuleTable.first_of_getElem? 16 rfl rfl (by decide +kernel)

/-! ### Fixed texts and single characters -/

/-- Every rule of the state has just one of these texts, or any single character. -/
def RuleTable.FixedOrAny (t : RuleTable τ π) (s : StateId) (texts : List (List Char)) : Prop :=
  ∀ rule ∈ t.rules s, (∃ text ∈ texts, rule.pattern.words = {symbols text}) ∨
    rule.pattern = .anyChar

theorem RuleTable.FixedOrAny.nothingBeyond {t : RuleTable τ π} {s : StateId}
    {texts : List (List Char)} (h : t.FixedOrAny s texts) {text : List Char} {n : Nat}
    (hfixed : ∀ p ∈ texts, p <+: text → p.length ≤ n) (hany : text ≠ [] → 1 ≤ n) :
    t.NothingBeyond s text n where
  beginning := by
    rintro q hq hlt i ⟨rule, hrule, hwords⟩
    rcases h rule (List.mem_of_getElem? hrule) with ⟨p, hp, hpattern⟩ | hpattern
    · rw [hpattern] at hwords
      obtain rfl := symbols_injective (Set.mem_singleton_iff.1 hwords)
      exact Nat.not_le.2 hlt (hfixed q hp hq)
    · rw [hpattern] at hwords
      obtain ⟨c, rfl⟩ := symbols_mem_anyChar.1 hwords
      have hne : text ≠ [] := by
        rintro rfl
        cases List.prefix_nil.1 hq
      exact Nat.not_le.2 hlt (hany hne)
  whole := by
    rintro i ⟨rule, hrule, hwords⟩
    rcases h rule (List.mem_of_getElem? hrule) with ⟨p, -, hpattern⟩ | hpattern
    · rw [hpattern] at hwords
      have hend : Symbol.endMark ∈ symbols p := by
        rw [← Set.mem_singleton_iff.1 hwords]
        exact List.mem_append_right _ (List.mem_singleton_self _)
      obtain ⟨c, -, hc⟩ := List.mem_map.1 hend
      cases hc
    · rw [hpattern] at hwords
      exact Layers.notMem_last rfl hwords

/-- The end of the input is a dead end. -/
theorem RuleTable.FixedOrAny.fails_at_end {l : Lexer τ π} {s : StateId} {texts : List (List Char)}
    (h : l.rules.FixedOrAny s texts) (hmax : l.config.maxMatch = none) (payloads : Payloads π)
    (place : Position) : l.Fails ⟨s, payloads, place, []⟩ (.deadEnd place "") := by
  have hbeyond : l.rules.NothingBeyond s [] 0 := by
    refine h.nothingBeyond (fun p _ hp => ?_) fun hne => (hne rfl).elim
    rw [List.prefix_nil.1 hp]
    exact Nat.le_refl 0
  have hfails : l.Fails ⟨s, payloads, place, []⟩
      (.deadEnd place (String.ofList (List.take l.config.preview []))) :=
    Lexer.fails_of_nothingBeyond hmax hbeyond
  rwa [List.take_nil] at hfails

end DerivativeLexer
