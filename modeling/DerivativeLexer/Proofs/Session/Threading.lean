import DerivativeLexer.Proofs.Lexer.Carrying
import DerivativeLexer.Proofs.Rules.Scripts
import DerivativeLexer.Proofs.Session.Moving

/-! # Payloads through a session

All that a session does with its payloads it does through the actions that fire, one after the
other. Along any run, from the launch of the session on, the history of what these actions have
stored therefore says what every one of them is given and what it leaves. -/

namespace DerivativeLexer

variable {τ π : Type}

namespace Network

section

variable {n n' m : Network τ π} {x : Nat} {σ σ' : Session τ π} {task : Task τ}
  {rest added : List (Task τ)} {e : Event τ}

/-- A task changes the payloads of a session only if it is a move of the session. -/
theorem Turn.carries (h : Turn { n with agenda := rest } x σ task σ' added)
    (hσ : n.session? x = some σ) (asked : List Request) :
    (n.move? x (.task task asked) = none ∧ σ'.engine.payloads = σ.engine.payloads) ∨
      ∃ move, n.move? x (.task task asked) = some move ∧
        move.Carries n.lexer.rules σ.engine.payloads σ'.engine.payloads := by
  have hquiet : task ≠ .drain x → n.move? x (.task task asked) = none := by
    intro hne
    refine move?_of_ne fun asked' htask => hne ?_
    exact (Event.task.inj htask).1
  have hmoves : ∀ {move : Move τ π}, σ.status.isLive = true → σ.cancelled = false →
      σ.engine.move n.lexer.rules n.lexer.config
        ⟨(n.source? σ.input).getD .fresh, σ.reader⟩ = move →
      n.move? x (.task (.drain x) asked) = some move ∧
        move.Carries n.lexer.rules σ.engine.payloads (move.payloadsAfter σ.engine) := by
    rintro move hlive hcancelled rfl
    refine ⟨?_, Engine.carries_move _ _ _ _⟩
    simp [move?, nextMove?, hσ, hlive, hcancelled]
  by_cases hdrain : task = .drain x
  · subst hdrain
    cases h with
    | elsewhere howner => exact (howner rfl).elim
    | halts hstopped => exact .inl ⟨by simp [move?, nextMove?, hσ, hstopped], rfl⟩
    | heeds _ hcancelled => exact .inl ⟨move?_drain_of_cancelled hσ hcancelled, rfl⟩
    | rests hlive hcancelled hmove => exact .inr ⟨_, hmoves hlive hcancelled hmove⟩
    | reads hlive hcancelled hmove => exact .inr ⟨_, hmoves hlive hcancelled hmove⟩
    | fires hlive hcancelled hmove => exact .inr ⟨_, hmoves hlive hcancelled hmove⟩
    | ends hlive hcancelled hmove => exact .inr ⟨_, hmoves hlive hcancelled hmove⟩
    | fails hlive hcancelled hmove => exact .inr ⟨_, hmoves hlive hcancelled hmove⟩
  · refine .inl ⟨hquiet hdrain, ?_⟩
    cases h with
    | halts | heeds | rests | reads | fires | ends | fails => exact (hdrain rfl).elim
    | _ => rfl

theorem Passes.carries (h : Passes n x σ e n' σ') (hσ : n.session? x = some σ) :
    (n.move? x e = none ∧ σ'.engine.payloads = σ.engine.payloads) ∨
      ∃ move, n.move? x e = some move ∧
        move.Carries n.lexer.rules σ.engine.payloads σ'.engine.payloads := by
  cases h with
  | turn hevent hagenda hturn =>
    subst hevent
    exact hturn.carries hσ _
  | aside hevent => exact .inl ⟨move?_of_ne fun asked he => hevent _ _ he, rfl⟩

theorem move?_of_session?_eq_none (hnone : n.session? x = none) : n.move? x e = none := by
  cases hdrain : e with
  | task task asked =>
    by_cases htask : task = .drain x
    · subst htask
      simp [move?, nextMove?, hnone]
    · exact move?_of_ne fun asked' he => htask (Event.task.inj he).1
  | _ => rfl

theorem session?_eq_none_of_size_le (h : n.sessions.size ≤ x) : n.session? x = none := by
  rw [session?, Array.getElem?_eq_none h]
  rfl

end

end Network

namespace Scripts

variable {S : Stateful π} {l : Lexer τ π} (scripts : Scripts S l.rules)

/-- Every firing does what its action comes to after the firings before it. -/
def Followed (firings : List (Firing τ π)) : Prop :=
  ∀ k firing, firings[k]? = some firing → scripts.Obeys (scripts.history (firings.take k)) firing

variable {scripts}

theorem Followed.snoc {firings : List (Firing τ π)} {firing : Firing τ π}
    (h : scripts.Followed firings) (hlast : scripts.Obeys (scripts.history firings) firing) :
    scripts.Followed (firings ++ [firing]) := by
  intro k other hother
  rcases Nat.lt_or_ge k firings.length with hlt | hge
  · rw [List.getElem?_append_left hlt] at hother
    rw [List.take_append_of_le_length (Nat.le_of_lt hlt)]
    exact h k other hother
  · rw [List.getElem?_append_right hge] at hother
    obtain ⟨hk, rfl⟩ := List.getElem?_eq_some_iff.1 hother
    rw [List.length_singleton] at hk
    obtain rfl : k = firings.length := by omega
    simpa using hlast

/-- What the moves have come to when the session has the payloads `payloads`. -/
structure Threads (scripts : Scripts S l.rules) (moves : List (Move τ π))
    (payloads : Payloads π) : Prop where
  followed : scripts.Followed (Move.firings moves)
  keeps : S.Keeps payloads (scripts.history (Move.firings moves))

theorem threads_start : Threads scripts [] .empty where
  followed := fun _ _ h => nomatch h
  keeps := Stateful.keeps_empty

theorem Threads.move {moves : List (Move τ π)} {before after : Payloads π} {move : Move τ π}
    (h : Threads scripts moves before) (hmove : move.Carries l.rules before after) :
    Threads scripts (moves ++ [move]) after := by
  have hfirings := Move.firings_snoc moves move
  have hfires : ∀ {firing : Firing τ π} {payloads : Payloads π},
      l.rules.fire? firing.state firing.rule firing.matched before = some firing →
      payloads = firing.payloads → move.firing? = some firing →
      Threads scripts (moves ++ [move]) payloads := by
    rintro firing payloads hfire rfl hfiring
    obtain ⟨hobeys, hkeeps⟩ : scripts.Obeys _ firing ∧ _ := obeys_of_fire? hfire h.keeps
    rw [hfiring, Option.toList_some] at hfirings
    refine ⟨?_, ?_⟩
    · rw [hfirings]
      exact h.followed.snoc hobeys
    · rw [hfirings, history_snoc]
      exact hkeeps
  have hsame : ∀ {payloads : Payloads π}, payloads = before → move.firing? = none →
      Threads scripts (moves ++ [move]) payloads := by
    rintro payloads rfl hfiring
    rw [hfiring, Option.toList_none, List.append_nil] at hfirings
    exact ⟨hfirings ▸ h.followed, hfirings ▸ h.keeps⟩
  cases hmove with
  | rest => exact hsame rfl rfl
  | read hpayloads => exact hsame hpayloads rfl
  | fire hfire hpayloads => exact hfires hfire hpayloads rfl
  | last hfire hpayloads => exact hfires hfire hpayloads rfl
  | fail => exact hsame rfl rfl

/-- What a run leaves of a session and of its payloads. -/
structure Traces (scripts : Scripts S l.rules) (x : Nat) (moves : List (Move τ π))
    (n : Network τ π) : Prop where
  followed : scripts.Followed (Move.firings moves)
  unborn : n.sessions.size ≤ x → moves = []
  threads : ∀ σ, n.session? x = some σ → Threads scripts moves σ.engine.payloads

open Network

theorem Traces.happens {n n' : Network τ π} {x : Nat} {moves : List (Move τ π)} {e : Event τ}
    (h : Traces scripts x moves n) (hlexer : n.lexer = l) (hnext : n.Happens e n') :
    Traces scripts x (moves ++ (n.move? x e).toList) n' := by
  have hunborn : n'.sessions.size ≤ x → moves ++ (n.move? x e).toList = [] := by
    intro hsize
    have hbefore := Nat.le_trans hnext.size_le hsize
    rw [move?_of_session?_eq_none (session?_eq_none_of_size_le hbefore), h.unborn hbefore]
    rfl
  have hthreads : ∀ σ', n'.session? x = some σ' →
      Threads scripts (moves ++ (n.move? x e).toList) σ'.engine.payloads := by
    intro σ' hσ'
    rcases hnext.session_before hσ' with ⟨σ, hσ, hdrop⟩ | ⟨t, offset, reader, hx, -, -, hlaunch⟩
    · obtain ⟨σ'', hσ'', hpasses⟩ := hnext.passes hσ hdrop
      obtain rfl := Option.some.inj (hσ''.symm.trans hσ')
      rcases hpasses.carries hσ with ⟨hquiet, hpayloads⟩ | ⟨move, hmove, hcarries⟩
      · rw [hquiet, hpayloads, Option.toList_none, List.append_nil]
        exact h.threads σ hσ
      · rw [hmove, Option.toList_some]
        rw [hlexer] at hcarries
        exact (h.threads σ hσ).move hcarries
    · have hnone : n.session? x = none := session?_eq_none_of_size_le (Nat.le_of_eq hx.symm)
      rw [move?_of_session?_eq_none hnone, h.unborn (Nat.le_of_eq hx.symm)]
      subst hlaunch hx
      rw [session?_launch_size] at hσ'
      obtain rfl := Option.some.inj hσ'
      exact threads_start
  refine ⟨?_, hunborn, hthreads⟩
  cases hσ' : n'.session? x with
  | some σ' => exact (hthreads σ' hσ').followed
  | none =>
    rw [hnext.move?_eq_none hσ', Option.toList_none, List.append_nil]
    exact h.followed

end Scripts

/-- In every run, each action of a session does what it comes to when the values are those that the
actions before it have stored: an update is given the latest value stored for its state, or the
initial one, and leaves the value that it has entered itself, or else its working copy; and no
payload changes otherwise. -/
theorem payloads_threaded {S : Stateful π} {l : Lexer τ π} (scripts : Scripts S l.rules) {x : Nat}
    {trace : List (Event τ)} {moves : List (Move τ π)} {n : Network τ π}
    (h : (Network.fresh l).Moved x trace moves n) :
    (∀ k firing, (Move.firings moves)[k]? = some firing →
      scripts.Obeys (scripts.history ((Move.firings moves).take k)) firing) ∧
    ∀ σ, n.session? x = some σ → ∀ i,
      (S.slot i).read σ.engine.payloads = S.current (scripts.history (Move.firings moves)) i := by
  have htraces : Scripts.Traces scripts x moves n := by
    induction h with
    | refl => exact ⟨Scripts.threads_start.followed, fun _ => rfl, fun _ hσ => nomatch hσ⟩
    | snoc hmoved hnext ih => exact ih.happens hmoved.runs.lexer_eq hnext
  exact ⟨htraces.followed, fun σ hσ => (htraces.threads σ hσ).keeps.read⟩

/-! ### A counter and a note -/

/-- The counter is the payload of one state, the note that of another. -/
def Stateful.tally : Stateful (Nat ⊕ String) where
  Name := Bool
  Value := fun note => if note then String else Nat
  decideEq := inferInstance
  slot
    | false => ⟨⟨1⟩, (0 : Nat), Sum.inl, Sum.getLeft?⟩
    | true => ⟨⟨2⟩, "", Sum.inr, Sum.getRight?⟩
  state_injective := by decide
  unwrap_wrap
    | false, _ => rfl
    | true, _ => rfl

open Script in
/-- A plus counts on, and so does a cross, but it also makes the counter start at seven again. A
bar enters the note and leaves the counter where it is. -/
def Written.tally : List (String × List (Language × Written .tally String)) :=
  [("main", [(Language.lit "d", .plain (.done ⟨1⟩))]),
    ("counter", [
      (Language.lit "+", .update false fun (n : Nat) =>
        .send (.emit (toString n)) (.done (⟨1⟩, n + 1))),
      (Language.lit "x", .update false fun (n : Nat) =>
        .enter false (7 : Nat) fun counter => .done (counter, n + 1)),
      (Language.lit "|", .plain (.enter true "seen" fun note => .done note))]),
    ("note", [
      (Language.lit ".", .update true fun (text : String) =>
        .send (.emit text) (.done (⟨0⟩, text ++ "!")))])]

def Lexer.tally : Lexer String (Nat ⊕ String) where
  rules := Scripts.table Written.tally
  config := .standard
  productive := by decide +kernel

/-- The counter is counted on twice, made to start again, left and counted on. -/
def Network.tallying : Network String (Nat ⊕ String) :=
  (((fresh .tally).addSource ⟨"d++x+|.d+".toList, 0, false⟩).2.openSession 0 0 100).2

theorem Network.exists_moved_tallying :
    ∃ trace moves, (fresh .tally).Moved 0 trace moves tallying := by
  obtain ⟨later, hlater⟩ : ∃ trace, ((fresh .tally).addSource
      ⟨"d++x+|.d+".toList, 0, false⟩).2.Runs trace tallying :=
    exists_runs_openSession rfl (by decide +kernel)
  obtain ⟨moves, hmoves⟩ := ((Runs.one (.addSource _)).trans hlater).exists_moved 0
  exact ⟨_, moves, hmoves⟩

theorem payloads_threaded_sample : ∃ trace moves σ,
    (Network.fresh .tally).Moved 0 trace moves .tallying ∧ Network.tallying.session? 0 = some σ ∧
      σ.items = ["0", "1", "7", "seen", "8"] ∧
      (∀ k firing, (Move.firings moves)[k]? = some firing →
        (Scripts.ofTable Written.tally).Obeys
          ((Scripts.ofTable Written.tally).history ((Move.firings moves).take k)) firing) ∧
      ∀ i, (Stateful.tally.slot i).read σ.engine.payloads =
        Stateful.tally.current
          ((Scripts.ofTable Written.tally).history (Move.firings moves)) i := by
  obtain ⟨trace, moves, hmoved⟩ := Network.exists_moved_tallying
  obtain ⟨σ, hσ⟩ : ∃ σ, Network.tallying.session? 0 = some σ :=
    ⟨_, (Option.some_get (by decide +kernel)).symm⟩
  have hitems : (Network.tallying.session? 0).map (·.items) =
      some ["0", "1", "7", "seen", "8"] := by
    decide +kernel
  rw [hσ, Option.map_some, Option.some_inj] at hitems
  obtain ⟨hobeys, hkeeps⟩ := payloads_threaded (l := .tally) (Scripts.ofTable Written.tally) hmoved
  exact ⟨trace, moves, σ, hmoved, hσ, hitems, hobeys, hkeeps σ hσ⟩

end DerivativeLexer
