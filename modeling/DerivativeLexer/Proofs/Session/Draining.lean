import DerivativeLexer.Proofs.Lexer.Effort
import DerivativeLexer.Proofs.Session.Termination
import DerivativeLexer.Proofs.Session.Tiling

/-! # Every drain ends

A session that is launched drains what is there and is the last to be done with it, whatever its
actions and the listeners bring about in between. When nothing is left to do, it has stopped or has
nothing to read; and by then it has not worked more than the text allows. -/

namespace DerivativeLexer

variable {τ π : Type}

/-- If the session has nothing more to do although it is live, then nobody else has either, and
there is nothing to read. -/
def Network.RestsLast (n : Network τ π) (x : Nat) (σ : Session τ π) : Prop :=
  σ.status.isLive = true →
    (Task.own x n.agenda = [] ∨ Task.own x n.agenda = [.release x]) →
    (n.agenda = [] ∨ n.agenda = [.release x]) ∧ n.nextMove? x = some .rest

section

variable {l : Lexer τ π} {n n' : Network τ π} {s x k fuel : Nat} {σ σ' : Session τ π}
  {task : Task τ} {rest added : List (Task τ)} {feed : Feed Char}

/-- A live session has more to do after writing something than to be released. -/
theorem Stage.own_ne_release (h : Stage l x σ (task :: rest)) (hwrites : task.Writes x)
    (hlive : σ.status.isLive = true) : Task.own x rest ≠ [.release x] := by
  have hcons : Task.own x (task :: rest) = task :: Task.own x rest := Task.own_cons hwrites.owner
  intro hrelease
  rw [hrelease] at hcons
  have hlast : ∀ {work : List (Task τ)} {last : Task τ},
      Task.own x (task :: rest) = work ++ [last] → last = .release x := by
    intro work last hown
    have hlasts := congrArg List.getLast? (hcons.symm.trans hown)
    rw [List.getLast?_concat] at hlasts
    exact (Option.some.inj hlasts).symm
  cases h with
  | idle hown => cases hcons.symm.trans hown
  | ready => cases hwrites
  | rested => cases hwrites
  | failing => cases hwrites
  | cancelling => cases hwrites
  | acting hown => cases hlast hown
  | ending hown => cases hlast hown
  | closing _ _ hfinal =>
    rw [hfinal.not_isLive] at hlive
    cases hlive
  | closed hown => cases hcons.symm.trans hown
  | done hown => cases hcons.symm.trans hown

theorem Encloses.eq_nil (h : Encloses x (task :: rest)) (hown : Task.own x rest = []) :
    rest = [] := by
  by_contra hne
  have hlast := List.getLast?_eq_some_getLast hne
  have howner := h (rest.getLast hne) (by rw [List.getLast?_cons, hlast]; rfl)
  have hmem := (Task.mem_own_iff howner).2 (List.mem_of_getLast? hlast)
  rw [hown] at hmem
  cases hmem

namespace Network

theorem nextMove?_eq (hσ : n.session? x = some σ) (hlive : σ.status.isLive = true)
    (hcancelled : σ.cancelled = false) :
    n.nextMove? x = some (σ.engine.move n.lexer.rules n.lexer.config
      ⟨(n.source? σ.input).getD .fresh, σ.reader⟩) := by
  simp [nextMove?, hσ, hlive, hcancelled]

theorem restsLast_of_busy {other : Task τ} (hmem : other ∈ n.agenda)
    (howner : other.owner? = some x) (hne : other ≠ .release x) : n.RestsLast x σ := by
  intro _ hown
  have hmem' := (Task.mem_own_iff howner).2 hmem
  rcases hown with hown | hown
  · rw [hown] at hmem'
    cases hmem'
  · rw [hown] at hmem'
    exact (hne (List.mem_singleton.1 hmem')).elim

theorem restsLast_of_stopped (h : σ.status.isLive = false) : n.RestsLast x σ := by
  intro hlive
  rw [h] at hlive
  cases hlive

theorem restsLast_of_writes (hstage : Stage l x σ (task :: rest)) (hwrites : task.Writes x)
    (hadded : n'.agenda = added ++ rest) (hnone : Task.own x added = [])
    (hlive : σ'.status.isLive = σ.status.isLive) : n'.RestsLast x σ' := by
  intro hlive' hown
  rw [hadded, Task.own_append, hnone, List.nil_append] at hown
  rcases hown with hown | hown
  · exact (hstage.own_ne_nil hwrites hown).elim
  · exact (hstage.own_ne_release hwrites (hlive.symm.trans hlive') hown).elim

/-- A task of somebody else was there to do, so the session had something to do as well. -/
theorem RestsLast.of_foreign (h : n.RestsLast x σ) (hagenda : n.agenda = task :: rest)
    (hadded : n'.agenda = added ++ rest) (hnone : Task.own x added = [])
    (howner : task.owner? ≠ some x) (hlive : σ'.status.isLive = σ.status.isLive) :
    n'.RestsLast x σ' := by
  intro hlive' hown
  rw [hadded, Task.own_append, hnone, List.nil_append, ← Task.own_cons_of_ne howner,
    ← hagenda] at hown
  rcases (h (hlive.symm.trans hlive') hown).1 with hnil | hrelease
  · rw [hagenda] at hnil
    cases hnil
  · rw [hagenda] at hrelease
    obtain ⟨rfl, -⟩ := List.cons.inj hrelease
    exact (howner rfl).elim

theorem RestsLast.step (h : n.RestsLast x σ) (hencloses : Encloses x n.agenda)
    (hreachable : n.Reachable l) (hagenda : n.agenda = task :: rest)
    (hσ : n.session? x = some σ) (hσ' : n.step.session? x = some σ') : n.step.RestsLast x σ' := by
  have hstage := hreachable.stage hσ
  rw [hagenda] at hstage hencloses
  have hstep : n.step = { n with agenda := rest }.perform task := by
    rw [Network.step, hagenda]
  obtain ⟨σ₁, added, hturn, hσ₁, hadded⟩ :=
    turns_perform (n := { n with agenda := rest }) (x := x) (σ := σ) hσ task
  rw [← hstep] at hσ₁ hadded
  obtain rfl := Option.some.inj (hσ₁.symm.trans hσ')
  have hadded' : n.step.agenda = added ++ rest := hadded
  have hbusy : ∀ {other : Task τ}, other ∈ added → other.owner? = some x → other ≠ .release x →
      n.step.RestsLast x σ₁ := by
    intro other hmem
    refine restsLast_of_busy ?_
    rw [hadded']
    exact List.mem_append_left _ hmem
  cases hturn with
  | elsewhere howner _ _ _ hforeign =>
    exact h.of_foreign hagenda hadded' (Task.own_of_not_about hforeign) howner rfl
  | flagged => exact h.of_foreign hagenda hadded' rfl (by rintro ⟨⟩) rfl
  | cancelled => exact hbusy List.mem_cons_self rfl (by simp)
  | woken => exact hbusy List.mem_cons_self rfl (by simp)
  | emits =>
    exact restsLast_of_writes hstage (.emit _) hadded' (Task.own_outputTellings _ _) rfl
  | mute => exact restsLast_of_writes hstage (.emit _) hadded' rfl rfl
  | closes => exact restsLast_of_writes hstage .close hadded' (Task.own_outputTellings _ _) rfl
  | halts hstopped => exact restsLast_of_stopped hstopped
  | heeds => exact hbusy List.mem_cons_self rfl (by simp)
  | rests hlive hcancelled hmove =>
    intro _ _
    obtain rfl := hencloses.eq_nil hstage.of_drain.1
    refine ⟨.inr hadded', ?_⟩
    have hσ₀ : { n with agenda := [] }.session? x = some σ := hσ
    have hrest : { n with agenda := [] }.drain x = n.step := hstep.symm
    simp only [drain, hσ₀, hlive, hcancelled, hmove, Bool.not_true, Bool.false_eq_true,
      if_false] at hrest
    rw [← hrest]
    exact (nextMove?_eq (n := n) hσ hlive hcancelled).trans (congrArg some hmove)
  | reads => exact hbusy List.mem_cons_self rfl (by simp)
  | fires =>
    exact hbusy (List.mem_append_right _ (List.mem_singleton_self _)) rfl (by simp)
  | ends =>
    exact hbusy (List.mem_append_right _ (List.mem_singleton_self _)) rfl (by simp)
  | fails => exact hbusy List.mem_cons_self rfl (by simp)
  | proceeds => exact hbusy List.mem_cons_self rfl (by simp)
  | finishes => exact restsLast_of_stopped hstage.of_finish.2.2.2.1.not_isLive
  | releases =>
    intro hlive _
    obtain rfl := hencloses.eq_nil hstage.of_release.1
    have hrelease : Task.own x n.agenda = [.release x] := by
      rw [hagenda]
      exact Task.own_cons rfl
    refine ⟨.inl hadded', ?_⟩
    have hidle := (h hlive (.inr hrelease)).2
    rw [nextMove?, hσ, Option.bind_some] at hidle
    rw [nextMove?, hσ', Option.bind_some, hstep]
    exact hidle

theorem RestsLast.settle (hreachable : n.Reachable l) (hencloses : Encloses x n.agenda)
    (hσ : n.session? x = some σ) (h : n.RestsLast x σ) (fuel : Nat) :
    ∃ σ', (n.settle fuel).session? x = some σ' ∧ (n.settle fuel).RestsLast x σ' := by
  induction fuel generalizing n σ with
  | zero => exact ⟨σ, hσ, h⟩
  | succ fuel ih =>
    rw [Network.settle]
    split_ifs with hempty
    · exact ⟨σ, hσ, h⟩
    · rw [List.isEmpty_iff] at hempty
      obtain ⟨task, rest, hagenda⟩ := List.exists_cons_of_ne_nil hempty
      have hnext : n.Happens (.task task []) n.step := .task hagenda (.inl rfl)
      obtain ⟨σ', hσ', hpasses⟩ := hnext.passes hσ (by rintro ⟨⟩)
      exact ih (hreachable.runs (.one hnext))
        (hencloses.happens hreachable hnext trivial hσ hpasses) hσ'
        (h.step hencloses hreachable hagenda hσ hσ')

/-- When the drain of a session that was launched is over, the session has stopped or rests. -/
theorem Launches.drained (h : Launches l n s k feed) {fuel : Nat}
    (hreturns : ((n.launch s k feed.reader).settle fuel).agenda = []) :
    ∃ σ, ((n.launch s k feed.reader).settle fuel).session? n.sessions.size = some σ ∧
      (σ.status.Final ∨
        ((n.launch s k feed.reader).settle fuel).nextMove? n.sessions.size = some .rest) := by
  obtain ⟨hreachable, hsize⟩ := h.runs
  have htasks : (n.launch s k feed.reader).agenda = [.drain n.sessions.size] := by
    rw [launch, schedule, h.agenda_eq]
    rfl
  have hencloses : Encloses n.sessions.size (n.launch s k feed.reader).agenda := by
    intro last hlast
    rw [htasks] at hlast
    cases hlast
    rfl
  have hstart : (n.launch s k feed.reader).RestsLast n.sessions.size
      ⟨s, .start n.lexer.rules k, feed.reader, .fresh, [], .stepping, false, true⟩ := by
    intro _ hown
    have hdrain : Task.own n.sessions.size (n.launch s k feed.reader).agenda =
        [.drain n.sessions.size] := by
      rw [htasks]
      exact Task.own_cons rfl
    rw [hdrain] at hown
    rcases hown with hown | hown
    · cases hown
    · cases hown
  obtain ⟨σ, hσ, hrests⟩ := hstart.settle hreachable hencloses
    (session?_launch_size s k feed.reader) fuel
  refine ⟨σ, hσ, ?_⟩
  obtain ⟨trace, hruns⟩ := (n.launch s k feed.reader).exists_runs_settle fuel
  have hstage := (hreachable.runs hruns).stage hσ
  rw [hreturns] at hstage
  rcases hstage.at_rest with ⟨-, hcalm⟩ | ⟨-, hfinal, -⟩
  · exact .inr (hrests hcalm.live (.inl (by rw [hreturns]; rfl))).2
  · exact .inl hfinal

/-! ### What the tasks ask for -/

variable {P : Request → Prop}

theorem adds_inputTellings (h : n'.agenda = n.agenda) (t : Nat) (text : List Char) :
    n.Adds P (n'.schedule (n.inputTellings t text)) := by
  refine ⟨_, congrArg (n.inputTellings t text ++ ·) h, fun q hq => ?_⟩
  obtain ⟨k, hk⟩ := mem_inputTellings hq
  cases hk

theorem adds_outputTellings (h : n'.agenda = n.agenda) (y : Nat) (items : List τ) :
    n.Adds P (n'.schedule (n.outputTellings y items)) := by
  refine ⟨_, congrArg (n.outputTellings y items ++ ·) h, fun q hq => ?_⟩
  obtain ⟨k, hk⟩ := mem_outputTellings hq
  cases hk

theorem adds_requests {requests : List Request} (h : n'.agenda = n.agenda)
    (hrequests : ∀ q ∈ requests, P q) : n.Adds P (n'.schedule (requests.map .request)) := by
  refine ⟨_, congrArg ((requests.map Task.request : List (Task τ)) ++ ·) h, fun q hq => ?_⟩
  obtain ⟨q', hq', heq⟩ := List.mem_map.1 hq
  cases heq
  exact hrequests q hq'

theorem adds_wake (x : Nat) : n.Adds P (n.wake x) := by
  unfold wake
  cases n.session? x with
  | none => exact adds_of_eq rfl
  | some σ =>
    simp only
    split_ifs
    · exact adds_of_eq rfl
    · exact adds_own rfl rfl

theorem adds_grant (q : Request) : n.Adds P (n.grant q) := by
  cases q with
  | source r =>
    cases r with
    | push t text =>
      simp only [grant]
      cases n.source? t with
      | none => exact adds_of_eq rfl
      | some source =>
        simp only
        split_ifs
        · exact adds_of_eq rfl
        · exact adds_inputTellings rfl t text
    | close t => exact adds_inputTellings rfl t []
  | cancel x => exact adds_wake (n := n.modifySession x _) x

theorem adds_emit (y : Nat) (item : τ) : n.Adds P (n.emit y item) := by
  unfold emit
  cases n.session? y with
  | none => exact adds_of_eq rfl
  | some σ =>
    simp only
    split_ifs
    · exact adds_of_eq rfl
    · exact adds_outputTellings rfl y [item]

theorem adds_finish (y : Nat) (status : SessionStatus) : n.Adds P (n.finish y status) := by
  unfold finish
  cases n.session? y with
  | none => exact adds_of_eq rfl
  | some σ =>
    refine ⟨_, rfl, fun q hq => ?_⟩
    split_ifs at hq
    · cases List.mem_singleton.1 hq
    · rcases List.mem_pair.1 hq with hq | hq
      · cases hq
      · cases hq

namespace Asks

theorem adds_tellInput (hasks : n.Asks P) (t i : Nat) (text : List Char) :
    n.Adds P (n.tellInput t i text) := by
  unfold tellInput
  cases hu : n.inputs[t]?.bind (·.subscribers[i]?) with
  | none => exact adds_of_eq rfl
  | some u =>
    cases u with
    | session x => exact adds_wake x
    | listener r =>
      obtain ⟨input, hinput, hr⟩ := Option.bind_eq_some_iff.1 hu
      refine adds_requests rfl fun q hq => ?_
      exact hasks.subscribers t input hinput r (List.mem_of_getElem? hr) q (Reaction.mem_hear hq)

theorem adds_tellOutput (hasks : n.Asks P) (y i : Nat) (items : List τ) :
    n.Adds P (n.tellOutput y i items) := by
  unfold tellOutput
  cases hσ : n.session? y with
  | none => exact adds_of_eq rfl
  | some σ =>
    simp only
    cases hr : σ.listeners[i]? with
    | none => exact adds_of_eq rfl
    | some r =>
      refine adds_requests rfl fun q hq => ?_
      exact hasks.listeners y σ hσ r (List.mem_of_getElem? hr) q (Reaction.mem_hear hq)

/-- A task asks for nothing but what actions and listeners ask for. -/
theorem adds_perform (hasks : n.Asks P) (task : Task τ) : n.Adds P (n.perform task) := by
  cases task with
  | request q => exact adds_grant q
  | tellInput t i text => exact hasks.adds_tellInput t i text
  | tellOutput y i items => exact hasks.adds_tellOutput y i items
  | emit y item => exact adds_emit y item
  | close y => exact adds_outputTellings rfl y []
  | drain y => exact adds_drain hasks.actions y
  | proceed y replays => exact adds_own rfl rfl
  | finish y status => exact adds_finish y status
  | release y => exact adds_of_eq rfl

/-- What is asked for while `settle` does its tasks is asked for by actions or listeners. -/
theorem of_settling (hasks : n.Asks P) (hagenda : ∀ q, .request q ∈ n.agenda → P q)
    (fuel : Nat) : ∀ q asked, .task (.request q) asked ∈ n.settling fuel → P q := by
  induction fuel generalizing n with
  | zero =>
    intro q asked hq
    cases hq
  | succ fuel ih =>
    rw [settling]
    cases htasks : n.agenda with
    | nil =>
      intro q asked hq
      cases hq
    | cons task rest =>
      have hstep : n.step = { n with agenda := rest }.perform task := by
        rw [Network.step, htasks]
      have hasks' : { n with agenda := rest }.Asks P := hasks.of_wiring_eq rfl
      obtain ⟨added, hadded, hnew⟩ := hasks'.adds_perform task
      rw [htasks] at hagenda
      intro q asked hq
      rcases List.mem_cons.1 hq with hq | hq
      · cases hq
        exact hagenda q List.mem_cons_self
      · refine ih (hasks.of_wiring_eq wiring_step) (fun q' hq' => ?_) q asked hq
        rw [hstep, hadded] at hq'
        rcases List.mem_append.1 hq' with hq' | hq'
        · exact hnew q' hq'
        · exact hagenda q' (List.mem_cons_of_mem task hq')

end Asks

end Network

/-- The request puts nothing into the source `s`. -/
def Request.AddsNothing (s : Nat) (q : Request) : Prop := ∀ text, q ≠ .source (.push s text)

theorem Event.textFrom_delivered {trace : List (Event τ)}
    (h : ∀ q asked, .task (.request q) asked ∈ trace → q.AddsNothing s) (whole : Source Char) :
    (Event.delivered s whole trace).textFrom k = whole.textFrom k := by
  induction trace generalizing whole with
  | nil => rfl
  | cons e trace ih =>
    have hfeed : (e.feed s whole).textFrom k = whole.textFrom k := by
      cases e with
      | task task asked =>
        cases task with
        | request q =>
          have hq := h q asked List.mem_cons_self
          cases q with
          | source r =>
            simp only [Event.feed, Task.feed]
            cases r with
            | push t text =>
              have ht : t ≠ s := by
                rintro rfl
                exact hq text rfl
              simp only [if_neg ht]
            | close t =>
              simp only
              split_ifs
              · rfl
              · rfl
          | cancel x => rfl
        | _ => rfl
      | _ => rfl
    rw [Event.delivered, List.foldl_cons]
    refine (ih (fun q asked hq => h q asked (List.mem_cons_of_mem e hq)) _).trans hfeed

end

namespace Network

/-- A table is accepted when no pattern has the empty word, or else its first rule that has is
reported. On an accepted table a session fires at most once more than characters come to it, and
derives by at most as many characters as if every match began at the next character and read all
the rest, however often it goes back. Where actions push nothing, its first drain comes to an end;
and then it rests, or has stopped. -/
theorem drains_end :
    (∀ (rules : RuleTable τ π) (config : LexerConfig),
      ((∃ l, Lexer.build rules config = .ok l ∧ l.rules = rules ∧ l.config = config) ↔
          ∀ st ∈ rules.states, ∀ rule ∈ st.rules, [] ∉ rule.pattern.words) ∧
        ∀ e, Lexer.build rules config = .error e ↔
          ∃ st rule, rules.FirstNullable st rule ∧
            e = .invalidRule st.name rule.pattern.render) ∧
    ∀ {l : Lexer τ π} {n : Network τ π} {s k : Nat} {feed : Feed Char},
      Launches l n s k feed →
      (∀ {trace moves m}, (n.launch s k feed.reader).Moved n.sessions.size trace moves m →
        (∀ e ∈ trace, e.Spares s) →
        ∀ count, ((Event.delivered s feed.whole trace).textFrom k).length = count →
          (Move.firings moves).length ≤ count + 1 ∧
            moves.countP Move.derives ≤ count * (count + 1) / 2) ∧
      (l.rules.PushesNothing → ∃ fuel, ((n.launch s k feed.reader).settle fuel).agenda = [] ∧
        (∃ σ, ((n.launch s k feed.reader).settle fuel).session? n.sessions.size = some σ ∧
          (σ.status.Final ∨
            ((n.launch s k feed.reader).settle fuel).nextMove? n.sessions.size = some .rest)) ∧
        (n.Asks (Request.AddsNothing s) → ∀ count, (feed.textFrom k).length = count →
          (Move.firings ((n.launch s k feed.reader).movesOf n.sessions.size fuel)).length ≤
              count + 1 ∧
            ((n.launch s k feed.reader).movesOf n.sessions.size fuel).countP Move.derives ≤
              count * (count + 1) / 2)) := by
  refine ⟨fun rules config => ⟨Lexer.build_eq_ok_iff rules config,
    Lexer.build_eq_error_iff rules config⟩, fun {l n s k feed} h => ?_⟩
  have hwork : ∀ {trace moves m}, (n.launch s k feed.reader).Moved n.sessions.size trace moves m →
      (∀ e ∈ trace, e.Spares s) →
      ∀ count, ((Event.delivered s feed.whole trace).textFrom k).length = count →
        (Move.firings moves).length ≤ count + 1 ∧
          moves.countP Move.derives ≤ count * (count + 1) / 2 := by
    intro trace moves m hmoved hspares count hcount
    obtain ⟨⟨now, f, hcourse, hholds⟩, -⟩ := h.moved hmoved hspares
    refine hcourse.work_le ?_
    rw [hholds.textFrom_eq]
    exact hcount
  refine ⟨hwork, fun ht => ?_⟩
  obtain ⟨fuel, hreturns⟩ := h.runs.1.settles ht
  refine ⟨fuel, hreturns, h.drained hreturns, fun hasks count hcount => ?_⟩
  have hmoved := (Moved.refl (n := n.launch s k feed.reader) (x := n.sessions.size)).settle fuel
  refine hwork hmoved (spares_settling _ s fuel) count ?_
  have hnothing : ∀ q asked, .task (.request q) asked ∈
      (n.launch s k feed.reader).settling fuel → q.AddsNothing s := by
    refine (hasks.launch s k feed.reader).of_settling (fun q hq => ?_) fuel
    rw [launch, schedule, h.agenda_eq] at hq
    cases List.mem_singleton.1 hq
  rw [List.nil_append, Event.textFrom_delivered hnothing]
  exact hcount

end Network

/-! ### An engine that reads too far -/

/-- A letter `a` may be the beginning of `aab`, and a semicolon is the end of the input. -/
def Lexer.overreaching : Lexer String Unit where
  rules := ⟨[⟨"main", [
    ⟨Language.lit "a", pure RuleTable.initial⟩,
    ⟨Language.lit "aab", pure RuleTable.initial⟩,
    ⟨Language.lit ";", do
      Act.request (.close 0)
      pure RuleTable.initial⟩,
    ⟨Language.endOfInput, pure RuleTable.initial⟩]⟩]⟩
  config := .standard
  productive := by decide +kernel

namespace Network

def overreaching : Network String Unit :=
  ((fresh .overreaching).addSource ⟨"aa;".toList, 0, false⟩).2

def overread : Feed Char := ⟨⟨"aa;".toList, 0, false⟩, ⟨0, #[]⟩⟩

theorem launches_overreaching : Launches .overreaching overreaching 0 0 overread where
  reachable := ⟨_, .one (.addSource _)⟩
  agenda_eq := rfl
  source_eq := rfl
  readers := fun y ρ hρ => by cases hρ
  reached := ⟨Nat.le_refl 0, Nat.le_refl 0⟩

theorem asks_overreaching (P : Request → Prop) (hclose : P (.source (.close 0))) :
    overreaching.Asks P where
  actions := by
    intro state rule hrule matched payloads r hr
    have hrules : overreaching.lexer.rules = Lexer.overreaching.rules := rfl
    obtain ⟨index⟩ := state
    cases index with
    | succ i => cases hrule
    | zero =>
      simp only [hrules, Lexer.overreaching, RuleTable.rules, List.getElem?_cons_zero,
        List.mem_cons, List.not_mem_nil, or_false] at hrule
      rcases hrule with rfl | rfl | rfl | rfl
      · cases hr
      · cases hr
      · cases List.mem_singleton.1 hr
        exact hclose
      · cases hr
  subscribers := by
    intro t i hi r hr
    cases t with
    | zero =>
      obtain rfl := Option.some.inj hi
      cases hr
    | succ t => cases hi
  listeners := fun y σ hσ => by cases hσ

theorem pushesNothing_overreaching : Lexer.overreaching.rules.PushesNothing := by
  intro state rule hrule matched payloads s text h
  have hasks := asks_overreaching (fun q => ∀ s text, q ≠ .source (.push s text))
    fun _ _ h => nomatch h
  exact hasks.actions state rule hrule matched payloads _ h s text rfl

/-- Of `aa;` the engine reads all that is left before each match, so both bounds are reached. -/
theorem drains_end_sample :
    (∃ fuel, ((overreaching.launch 0 0 overread.reader).settle fuel).agenda = [] ∧
      (Move.firings ((overreaching.launch 0 0 overread.reader).movesOf 0 fuel)).length ≤ 3 + 1 ∧
      ((overreaching.launch 0 0 overread.reader).movesOf 0 fuel).countP Move.derives ≤
        3 * (3 + 1) / 2) ∧
      ∃ moves, (overreaching.launch 0 0 overread.reader).Moved 0
          ([] ++ (overreaching.launch 0 0 overread.reader).settling 60) moves
          ((overreaching.launch 0 0 overread.reader).settle 60) ∧
        (Move.firings moves).length ≤ 3 + 1 ∧ moves.countP Move.derives ≤ 3 * (3 + 1) / 2 ∧
        (Move.firings moves).length = 3 + 1 ∧ moves.countP Move.derives = 3 * (3 + 1) / 2 := by
  obtain ⟨hwork, hends⟩ := drains_end.2 launches_overreaching
  obtain ⟨fuel, hreturns, -, hcount⟩ := hends pushesNothing_overreaching
  have hmoved := (Moved.refl (n := overreaching.launch 0 0 overread.reader) (x := 0)).settle 60
  have hbounds := hwork hmoved
    (spares_settling (overreaching.launch 0 0 overread.reader) 0 60) 3 (by decide +kernel)
  exact ⟨⟨fuel, hreturns, hcount (asks_overreaching _ fun text h => nomatch h) 3 rfl⟩, _, hmoved,
    hbounds.1, hbounds.2, by decide +kernel, by decide +kernel⟩

end Network

end DerivativeLexer
