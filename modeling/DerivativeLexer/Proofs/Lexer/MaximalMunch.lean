import DerivativeLexer.Language.Pattern
import DerivativeLexer.Lexer.Run
import DerivativeLexer.Proofs.Lexer.Moves
import Mathlib.Tactic.Linarith

/-! # Maximal munch

What an engine does on a whole text is what the following procedure does, which knows nothing of
live rules, bookmarks or rereading. In the current state, with some text still to be matched: if
a rule has all of it with the end of the input behind it, the first such rule fires and lexing is
over; otherwise the longest beginning that some rule has goes to the first rule that has it, and
the procedure goes on behind it in the state that the action names; if there is no such beginning
either, lexing fails here. -/

namespace DerivativeLexer

open DerivativeLexer.Language (symbols)

variable {τ π : Type}

/-- The reference procedure in a state, with the text from a place on still to be matched: the
rules that it fires, and the error that it ends with. -/
inductive Munches (t : RuleTable τ π) (preview : Nat) :
    StateId → Payloads π → Position → List Char → List (Firing τ π) → Option LexError → Prop
  | finish {s : StateId} {payloads : Payloads π} {place : Position} {text : List Char} {i : Nat}
      {firing : Firing τ π} (hwins : t.Wins s (symbols text ++ [.endMark]) i)
      (hfiring : t.fire? s i ⟨text, ⟨place, place.advanceBy text⟩⟩ payloads = some firing) :
      Munches t preview s payloads place text [firing] none
  | next {s : StateId} {payloads : Payloads π} {place : Position} {text p q : List Char} {i : Nat}
      {firing : Firing τ π} {later : List (Firing τ π)} {error : Option LexError}
      (hwhole : ∀ j, ¬t.Matches s (symbols text ++ [.endMark]) j)
      (htext : p ++ q = text) (hne : p ≠ []) (hwins : t.Wins s (symbols p) i)
      (hlongest : ∀ r, r <+: text → p.length < r.length → ∀ j, ¬t.Matches s (symbols r) j)
      (hfiring : t.fire? s i ⟨p, ⟨place, place.advanceBy p⟩⟩ payloads = some firing)
      (hlater : Munches t preview firing.next firing.payloads (place.advanceBy p) q later error) :
      Munches t preview s payloads place text (firing :: later) error
  | stuck {s : StateId} {payloads : Payloads π} {place : Position} {text : List Char}
      (hwhole : ∀ j, ¬t.Matches s (symbols text ++ [.endMark]) j)
      (hnone : ∀ p, p <+: text → p ≠ [] → ∀ j, ¬t.Matches s (symbols p) j) :
      Munches t preview s payloads place text []
        (some (.deadEnd place (String.ofList (text.take preview))))

namespace Munches

theorem unique {t : RuleTable τ π} {preview : Nat} {s : StateId} {payloads : Payloads π}
    {place : Position} {text : List Char} {fs fs' : List (Firing τ π)} {e e' : Option LexError}
    (h : Munches t preview s payloads place text fs e)
    (h' : Munches t preview s payloads place text fs' e') : fs = fs' ∧ e = e' := by
  induction h generalizing fs' e' with
  | finish hwins hfiring =>
    cases h' with
    | finish hwins' hfiring' =>
      rw [hwins.unique hwins', hfiring'] at hfiring
      rw [Option.some.inj hfiring]
      exact ⟨rfl, rfl⟩
    | next hwhole' => exact (hwhole' _ hwins.1).elim
    | stuck hwhole' => exact (hwhole' _ hwins.1).elim
  | @next s payloads place text p q i firing later error hwhole htext hne hwins hlongest hfiring
      hlater ih =>
    cases h' with
    | finish hwins' => exact (hwhole _ hwins'.1).elim
    | @next _ _ _ _ p' q' _ firing' later' _ hwhole' htext' hne' hwins' hlongest' hfiring'
        hlater' =>
      have hp : p <+: text := ⟨q, htext⟩
      have hp' : p' <+: text := ⟨q', htext'⟩
      have hlen : p.length = p'.length := by
        apply Nat.le_antisymm
        · exact Nat.not_lt.1 fun hlt => hlongest' p hp hlt _ hwins.1
        · exact Nat.not_lt.1 fun hlt => hlongest p' hp' hlt _ hwins'.1
      obtain ⟨rfl, rfl⟩ := List.append_inj (htext.trans htext'.symm) hlen
      rw [hwins.unique hwins', hfiring'] at hfiring
      obtain rfl := Option.some.inj hfiring
      obtain ⟨rfl, rfl⟩ := ih hlater'
      exact ⟨rfl, rfl⟩
    | stuck _ hnone' => exact (hnone' p ⟨q, htext⟩ hne _ hwins.1).elim
  | stuck hwhole hnone =>
    cases h' with
    | finish hwins' => exact (hwhole _ hwins'.1).elim
    | next _ htext' hne' hwins' => exact (hnone _ ⟨_, htext'⟩ hne' _ hwins'.1).elim
    | stuck => exact ⟨rfl, rfl⟩

end Munches

/-! ### What a run fires and emits -/

/-- The items that effects put into an output that is open at first. -/
def Effect.emitted : List (Effect τ) → List τ
  | [] => []
  | .emit item :: later => item :: emitted later
  | .close :: _ => []
  | .request _ :: later => emitted later

def SessionStatus.ended : Option LexError → SessionStatus
  | none => .terminated
  | some e => .failed e

namespace SessionStatus

theorem error?_ended (e : Option LexError) : (ended e).error? = e := by
  cases e with
  | none => rfl
  | some e => rfl

end SessionStatus

namespace SoloRun

variable {l : Lexer τ π} {s : SoloRun τ π}

def firings (l : Lexer τ π) (s : SoloRun τ π) : Nat → List (Firing τ π)
  | 0 => []
  | fuel + 1 =>
    if s.status.isLive then
      (s.engine.move l.rules l.config s.feed).firing?.toList ++ (s.step l).firings l fuel
    else []

theorem queue_applyEffects (out : Source τ) (effects : List (Effect τ)) :
    (applyEffects out effects).queue =
      if out.closed then out.queue else out.queue ++ Effect.emitted effects := by
  induction effects generalizing out with
  | nil => simp [applyEffects, Effect.emitted]
  | cons effect later ih =>
    rw [applyEffects, List.foldl_cons, ← applyEffects, ih]
    cases effect with
    | emit item =>
      cases hclosed : out.closed with
      | true => simp [hclosed]
      | false => simp [hclosed, Effect.emitted]
    | close => simp [Source.close, Effect.emitted]
    | request r => simp [Effect.emitted]

theorem applyEffects_append (out : Source τ) (a b : List (Effect τ)) :
    applyEffects out (a ++ b) = applyEffects (applyEffects out a) b :=
  List.foldl_append

theorem firings_of_stopped (h : s.status.isLive = false) (fuel : Nat) : s.firings l fuel = [] := by
  cases fuel with
  | zero => rfl
  | succ fuel => simp [firings, h]

theorem firings_succ (h : s.status.isLive = true) (fuel : Nat) :
    s.firings l (fuel + 1) =
      (s.engine.move l.rules l.config s.feed).firing?.toList ++ (s.step l).firings l fuel := by
  rw [firings, if_pos h]

/-- Enough moves for `read` and `ahead`: one for each character ahead, one to decide, and the
moves of every later match, which has at least one character less. -/
def movesFor (read ahead : List Char) : Nat :=
  (read.length + ahead.length) * (read.length + ahead.length + 1) + ahead.length + 1

theorem movesFor_read (read : List Char) (c : Char) (left : List Char) :
    movesFor (read ++ [c]) left + 1 = movesFor read (c :: left) := by
  have hlen : (read ++ [c]).length + left.length = read.length + (c :: left).length := by
    rw [List.length_append, List.length_singleton, List.length_cons]
    omega
  rw [movesFor, movesFor, hlen, List.length_cons]
  omega

theorem movesFor_fire {p q read ahead : List Char} (htext : p ++ q = read ++ ahead)
    (hne : p ≠ []) : movesFor [] q + 1 ≤ movesFor read ahead := by
  have hlen := congrArg List.length htext
  have hpos := List.length_pos_of_ne_nil hne
  rw [List.length_append, List.length_append] at hlen
  simp only [movesFor, ← hlen, List.length_nil, Nat.zero_add]
  nlinarith

/-- A run in the middle of a match goes on as the procedure does from the start of that match. -/
theorem run_munches (hmax : l.config.maxMatch = none) (fuel : Nat) {s : SoloRun τ π}
    {read ahead : List Char} (hlive : s.status.isLive = true)
    (hclosed : s.feed.source.closed = true)
    (htracks : Engine.Tracks l.rules s.feed s.engine read ahead)
    (hfuel : movesFor read ahead ≤ fuel) :
    ∃ e, Munches l.rules l.config.preview s.engine.matching.origin s.engine.payloads
        s.engine.matching.start (read ++ ahead) (s.firings l fuel) e ∧
      (s.run l fuel).status = .ended e ∧
      (s.run l fuel).output =
        (applyEffects s.output ((s.firings l fuel).flatMap (·.effects))).close := by
  induction fuel generalizing s read ahead with
  | zero =>
    unfold movesFor at hfuel
    omega
  | succ fuel ih =>
    rw [run_succ hlive, firings_succ hlive, step]
    have hmove := Engine.explains_move l.config htracks
    generalize s.engine.move l.rules l.config s.feed = move at hmove
    cases hmove with
    | rest hahead hopen =>
      rw [hclosed] at hopen
      cases hopen
    | @read c left e' f' hahead hreads htracks' horigin hstart hpayloads hlimit =>
      subst hahead
      have hfuel' : movesFor (read ++ [c]) left ≤ fuel := by
        have hmoves := movesFor_read read c left
        omega
      obtain ⟨e, hmunches, hstatus, houtput⟩ := ih
        (s := { s with engine := e', feed := f', status := s.status.afterRead e'.replaying })
        (SessionStatus.isLive_afterRead hlive _) (hreads.closed_eq.trans hclosed) htracks' hfuel'
      simp only [horigin, hstart, hpayloads, List.append_assoc, List.singleton_append]
        at hmunches
      exact ⟨e, hmunches, hstatus, houtput⟩
    | @fire p q i firing e' replays htext hwins hbeyond hfiring htracks' horigin hstart hpayloads =>
      have hne : p ≠ [] := by
        rintro rfl
        exact RuleTable.not_matches_nil l.productive _ _ hwins.1
      have hfuel' : movesFor [] q ≤ fuel := by
        have hmoves := movesFor_fire htext hne
        omega
      obtain ⟨e, hmunches, hstatus, houtput⟩ := ih
        (s := { s with
          engine := e'
          output := applyEffects s.output firing.effects
          status := s.status.afterFire replays })
        (SessionStatus.isLive_afterFire hlive _) hclosed htracks' hfuel'
      simp only [horigin, hstart, hpayloads, List.nil_append] at hmunches
      rw [htext] at hbeyond
      refine ⟨e, ?_, hstatus, ?_⟩
      · exact .next hbeyond.whole htext hne hwins hbeyond.beginning hfiring hmunches
      · rw [houtput, ← applyEffects_append]
        rfl
    | @last i firing e' hahead hclosed' hwins hfiring =>
      subst hahead
      have hstopped : SessionStatus.terminated.isLive = false := rfl
      rw [run_of_stopped hstopped, firings_of_stopped hstopped, List.append_nil]
      refine ⟨none, ?_, rfl, ?_⟩
      · rw [List.append_nil]
        exact .finish hwins hfiring
      · simp [stop, Move.firing?]
    | deadEnd hreads hbeyond =>
      have hstopped : ∀ error, (SessionStatus.failed error).isLive = false := fun _ => rfl
      rw [run_of_stopped (hstopped _), firings_of_stopped (hstopped _), List.append_nil]
      refine ⟨_, .stuck hbeyond.whole ?_, rfl, rfl⟩
      exact fun p hp hne => hbeyond.beginning p hp (List.length_pos_of_ne_nil hne)
    | tooLong hahead hreads hlimit =>
      rw [hmax] at hlimit
      cases hlimit

theorem tracks_start (l : Lexer τ π) (text : List Char) :
    Engine.Tracks l.rules (start l text).feed (start l text).engine [] text :=
  Engine.tracks_enter l.rules ⟨Nat.le_refl 0, Nat.le_refl 0⟩

end SoloRun

namespace Lexer

def firings (l : Lexer τ π) (text : List Char) : List (Firing τ π) :=
  (SoloRun.start l text).firings l (moveBound text.length)

/-- Lexing a whole text fires what the reference procedure fires and ends as it ends, and the
procedure can do nothing else. The text yields the items that the actions emitted, or the error
that the procedure ends with. -/
theorem maximal_munch (l : Lexer τ π) (hmax : l.config.maxMatch = none) (text : List Char) :
    ∃ e, Munches l.rules l.config.preview RuleTable.initial .empty .start text (l.firings text) e ∧
      (∀ fs e', Munches l.rules l.config.preview RuleTable.initial .empty .start text fs e' →
        fs = l.firings text ∧ e' = e) ∧
      (l.lastRun text).status = .ended e ∧
      l.tokenize text =
        match e with
        | none => .ok (Effect.emitted ((l.firings text).flatMap (·.effects)))
        | some error => .error error := by
  have hfuel : SoloRun.movesFor [] text ≤ moveBound text.length := by
    simp only [SoloRun.movesFor, moveBound, List.length_nil, Nat.zero_add]
    nlinarith
  obtain ⟨e, hmunches, hstatus, houtput⟩ := SoloRun.run_munches hmax (moveBound text.length)
    (s := SoloRun.start l text) rfl rfl (SoloRun.tracks_start l text) hfuel
  refine ⟨e, hmunches, fun fs e' h => h.unique hmunches, hstatus, ?_⟩
  have herror : (l.lastRun text).status.error? = e := by
    rw [lastRun, hstatus, SessionStatus.error?_ended]
  cases e with
  | some error => simp only [tokenize, herror]
  | none =>
    have hqueue : (l.lastRun text).output.queue =
        Effect.emitted ((l.firings text).flatMap (·.effects)) := by
      rw [lastRun, houtput]
      exact (SoloRun.queue_applyEffects .fresh _).trans (List.nil_append _)
    simp only [tokenize, herror, hqueue]

def sample : Lexer String Unit where
  rules := ⟨[⟨"main", [
    ⟨Language.lit "if", do
      Act.emit "IF"
      pure RuleTable.initial⟩,
    ⟨(Language.range 'a' 'z').oneOrMore, do
      Act.emit (String.ofList (← Act.text))
      pure RuleTable.initial⟩,
    ⟨(Language.oneOf " ").oneOrMore, pure RuleTable.initial⟩,
    ⟨Language.endOfInput, do
      Act.close
      pure RuleTable.initial⟩]⟩]⟩
  config := .standard
  productive := by decide +kernel

/-- The keyword goes to its own rule, the longer word does not, and no rule has the digit. -/
theorem maximal_munch_sample :
    sample.config.maxMatch = none ∧
      ((sample.firings "if ifx 9".toList).map fun f => (f.rule, f.matched.text)) =
        [(0, ['i', 'f']), (2, [' ']), (1, ['i', 'f', 'x']), (2, [' '])] ∧
      Munches sample.rules 16 RuleTable.initial .empty .start "if ifx 9".toList
        (sample.firings "if ifx 9".toList) (some (.deadEnd ⟨7, 1, 8⟩ "9")) ∧
      sample.tokenize "if ifx 9".toList = .error (.deadEnd ⟨7, 1, 8⟩ "9") := by
  have hresult : sample.tokenize "if ifx 9".toList = .error (.deadEnd ⟨7, 1, 8⟩ "9") := by
    decide +kernel
  obtain ⟨e, hmunches, -, -, htokenize⟩ := maximal_munch sample rfl "if ifx 9".toList
  refine ⟨rfl, by decide +kernel, ?_, hresult⟩
  rw [hresult] at htokenize
  cases e with
  | none => cases htokenize
  | some error =>
    obtain rfl := Except.error.inj htokenize
    exact hmunches

end Lexer

end DerivativeLexer
