import DerivativeLexer.Proofs.Lexer.Beginnings
import DerivativeLexer.Proofs.Lexer.Unlimited

/-! # What a dead end shows

A dead end shows the text from the place where the match in progress began, as far as it is there
and as far as the configuration wants to see it. What the configuration wants to see makes no other
difference. So lexers with the same rules, of which none stops a match for its length, begin the
same matches and come to a dead end at the same place. -/

namespace DerivativeLexer

variable {τ π : Type}

/-! ### The same moves -/

/-- The moves are the same, or both are dead ends at the place. -/
inductive Move.Twins (place : Position) : Move τ π → Move τ π → Prop
  | same (move : Move τ π) : Twins place move move
  | deadEnd (remaining remaining' : String) (f f' : Feed Char) :
      Twins place (.fail (.deadEnd place remaining) f) (.fail (.deadEnd place remaining') f')

namespace Engine

section

variable (t : RuleTable τ π) {config config' : LexerConfig} (e : Engine π) (f : Feed Char)

theorem twins_deadEnd (config config' : LexerConfig) :
    Move.Twins e.matching.start (e.deadEnd config f : Move τ π) (e.deadEnd config' f) :=
  .deadEnd _ _ _ _

theorem twins_fireAt (config config' : LexerConfig) (m : Matching) (stop : Position)
    (replays : Bool) : Move.Twins e.matching.start (e.fireAt t config f m stop replays)
      (e.fireAt t config' f m stop replays) := by
  rw [fireAt, fireAt]
  cases e.fire? t f.reader m stop with
  | none => exact e.twins_deadEnd f config config'
  | some firing => exact .same _

theorem twins_backtrack (config config' : LexerConfig) :
    Move.Twins e.matching.start (e.backtrack t config f) (e.backtrack t config' f) := by
  unfold backtrack
  cases e.bookmark with
  | none => exact e.twins_deadEnd f config config'
  | some mark => exact e.twins_fireAt t f config config' mark.matching mark.position _

theorem twins_finish (config config' : LexerConfig) :
    Move.Twins e.matching.start (e.finish t config f) (e.finish t config' f) := by
  simp only [finish]
  split_ifs with haccepts
  · cases e.fire? t f.reader (e.matching.derive .endMark) e.position with
    | none => exact e.twins_deadEnd f config config'
    | some firing => exact .same _
  · exact e.twins_backtrack t f config config'

theorem twins_advance (hmax : config'.maxMatch = config.maxMatch) :
    Move.Twins e.matching.start (e.advance t config f) (e.advance t config' f) := by
  unfold advance
  split_ifs with hended
  · exact e.twins_finish t f config config'
  · cases f.head? e.position.offset with
    | none => exact .same _
    | some taken =>
      -- reading a character asks only for the limit
      simp only [absorb, exceeds, hmax]
      exact .same _

theorem twins_move (hmax : config'.maxMatch = config.maxMatch) :
    Move.Twins e.matching.start (e.move t config f) (e.move t config' f) := by
  unfold move
  split_ifs
  · exact e.twins_fireAt t f config config' e.matching e.position false
  · exact e.mark.twins_advance t f hmax
  · exact e.twins_backtrack t f config config'
  · exact e.twins_advance t f hmax

end

end Engine

/-! ### The same runs -/

namespace SoloRun

variable {l l' : Lexer τ π} {s s' : SoloRun τ π}

/-- The runs are the same, or both have come to a dead end at one place with one output. -/
inductive Twins : SoloRun τ π → SoloRun τ π → Prop
  | same (s : SoloRun τ π) : Twins s s
  | deadEnd {s s' : SoloRun τ π} {place : Position} {remaining remaining' : String}
      (hstatus : s.status = .failed (.deadEnd place remaining))
      (hstatus' : s'.status = .failed (.deadEnd place remaining'))
      (houtput : s'.output = s.output) : Twins s s'

namespace Twins

theorem step (hrules : l'.rules = l.rules) (hmax : l'.config.maxMatch = l.config.maxMatch)
    (s : SoloRun τ π) : Twins (s.step l) (s.step l') := by
  have hmove := s.engine.twins_move l.rules s.feed hmax
  rw [SoloRun.step, SoloRun.step, hrules]
  generalize s.engine.move l.rules l.config s.feed = move at hmove
  generalize s.engine.move l.rules l'.config s.feed = move' at hmove
  cases hmove with
  | same => exact .same _
  | deadEnd => exact .deadEnd rfl rfl rfl

theorem run (hrules : l'.rules = l.rules) (hmax : l'.config.maxMatch = l.config.maxMatch)
    (h : Twins s s') (n : Nat) : Twins (s.run l n) (s'.run l' n) := by
  induction n generalizing s s' with
  | zero => exact h
  | succ n ih =>
    cases h with
    | same =>
      cases hlive : s.status.isLive with
      | false =>
        rw [run_of_stopped hlive, run_of_stopped hlive]
        exact .same s
      | true =>
        rw [run_succ hlive, run_succ hlive]
        exact ih (step hrules hmax s)
    | deadEnd hstatus hstatus' houtput =>
      rw [run_of_stopped (by rw [hstatus]; rfl), run_of_stopped (by rw [hstatus']; rfl)]
      exact .deadEnd hstatus hstatus' houtput

end Twins

theorem twins_run (hrules : l'.rules = l.rules) (hmax : l'.config.maxMatch = l.config.maxMatch)
    (source : List Char) (n : Nat) :
    Twins ((start l source).run l n) ((start l' source).run l' n) := by
  have hstart : start l' source = start l source := by rw [start, start, hrules]
  rw [hstart]
  exact .run hrules hmax (.same _) n

/-- A dead end shows what was there behind the last match. -/
theorem remaining_eq (hplaced : s.Placed l) (hlive : s.status.isLive = true) {n : Nat}
    {place : Position} {remaining : String}
    (hstatus : (s.run l n).status = .failed (.deadEnd place remaining)) :
    remaining = String.ofList ((s.feed.textFrom place.offset).take l.config.preview) := by
  induction n generalizing s with
  | zero =>
    rw [run] at hstatus
    rw [hstatus] at hlive
    cases hlive
  | succ n ih =>
    rw [run_succ hlive] at hstatus
    cases hnext : (s.step l).status.isLive with
    | true =>
      rw [← (step_reads hplaced hlive).textFrom_eq]
      exact ih (hplaced.step hlive) hnext hstatus
    | false =>
      -- this is the move that failed
      obtain ⟨read, ahead, htracks⟩ := hplaced hlive
      have hexplains := Engine.explains_move l.config htracks
      rw [run_of_stopped hnext] at hstatus
      rw [step] at hstatus hnext
      generalize s.engine.move l.rules l.config s.feed = move at hexplains hstatus hnext
      cases hexplains with
      | rest => cases hlive.symm.trans hnext
      | read => cases (SessionStatus.isLive_afterRead hlive _).symm.trans hnext
      | fire => cases (SessionStatus.isLive_afterFire hlive _).symm.trans hnext
      | last => cases hstatus
      | deadEnd =>
        obtain ⟨rfl, rfl⟩ := LexError.deadEnd.inj (SessionStatus.failed.inj hstatus)
        rw [htracks.text_eq]
      | tooLong => cases hstatus

end SoloRun

/-! ### Lexing a text -/

namespace Lexer

variable {l l' : Lexer τ π} {source : List Char} {place : Position} {remaining : String}

theorem lastRun_of_tokenize (h : l.tokenize source = .error (.deadEnd place remaining)) :
    (l.lastRun source).status = .failed (.deadEnd place remaining) := by
  simp only [tokenize] at h
  cases hstatus : (l.lastRun source).status with
  | failed e =>
    rw [hstatus] at h
    rw [Except.error.inj h]
  | cancelled =>
    rw [hstatus] at h
    cases Except.error.inj h
  | terminated =>
    rw [hstatus] at h
    cases h
  | stepping =>
    rw [hstatus] at h
    cases h
  | backtracking =>
    rw [hstatus] at h
    cases h

theorem remaining_eq
    (hstatus : (l.lastRun source).status = .failed (.deadEnd place remaining)) :
    remaining = String.ofList ((source.drop place.offset).take l.config.preview) :=
  SoloRun.remaining_eq (SoloRun.placed_start l source) rfl hstatus

/-- A lexer whose limit has not stopped it does what one without a limit does. -/
theorem lastRun_unlimited (h : ¬(l.lastRun source).status.TooLong) :
    l.unlimited.lastRun source = l.lastRun source :=
  ((SoloRun.Trails.same (SoloRun.start l source)).run l _).eq_of_not_tooLong h |>.symm

theorem not_tooLong_of_deadEnd
    (hstatus : (l.lastRun source).status = .failed (.deadEnd place remaining)) :
    ¬(l.lastRun source).status.TooLong := by
  rw [hstatus]
  exact SessionStatus.not_tooLong_deadEnd _ _

/-- A lexer with the same rules and no limit comes to the same dead end. -/
theorem deadEnd_of_same_rules (hrules : l'.rules = l.rules) (hmax : l'.config.maxMatch = none)
    (hstatus : (l.lastRun source).status = .failed (.deadEnd place remaining)) :
    ∃ remaining', (l'.lastRun source).status = .failed (.deadEnd place remaining') ∧
      (l'.lastRun source).output = (l.lastRun source).output := by
  have htwins : ((l.unlimited.lastRun source).Twins (l'.lastRun source)) :=
    SoloRun.twins_run (l := l.unlimited) hrules hmax source _
  rw [lastRun_unlimited (not_tooLong_of_deadEnd hstatus)] at htwins
  generalize l.lastRun source = r at htwins hstatus
  generalize l'.lastRun source = r' at htwins
  cases htwins with
  | same => exact ⟨_, hstatus, rfl⟩
  | deadEnd hstatus₁ hstatus' houtput =>
    obtain ⟨rfl, -⟩ :=
      LexError.deadEnd.inj (SessionStatus.failed.inj (hstatus₁.symm.trans hstatus))
    exact ⟨_, hstatus', houtput⟩

/-- The matches that it begins are begun by the other lexer too. -/
theorem Begins.of_same_rules {s : StateId} {payloads : Payloads π} {items : List τ}
    (hrules : l'.rules = l.rules) (hmax : l'.config.maxMatch = none)
    (hlimit : ¬(l.lastRun source).status.TooLong) {place : Position}
    (h : l'.Begins source s payloads place items) : l.Begins source s payloads place items := by
  obtain ⟨n, hbegins, hpayloads, hitems⟩ := h
  have htwins : (((SoloRun.start l source).run l.unlimited n).Twins
      ((SoloRun.start l' source).run l' n)) :=
    SoloRun.twins_run (l := l.unlimited) hrules hmax source n
  have htrails := (SoloRun.Trails.same (SoloRun.start l source)).run l n
  generalize (SoloRun.start l' source).run l' n = r at hbegins hpayloads hitems htwins
  cases htwins with
  | deadEnd _ hstatus' =>
    have hlive := hbegins.live
    rw [hstatus'] at hlive
    cases hlive
  | same =>
    have hnot : ¬((SoloRun.start l source).run l n).status.TooLong := by
      intro htooLong
      rw [run_eq_lastRun htooLong.stopped] at htooLong
      exact hlimit htooLong
    have hsame := htrails.eq_of_not_tooLong hnot
    rw [← hsame] at hbegins hpayloads hitems
    exact ⟨n, ⟨hbegins.live, hrules ▸ hbegins.matching_eq, hbegins.position_eq⟩, hpayloads, hitems⟩

end Lexer

end DerivativeLexer
