import DerivativeLexer.Lexer.Engine

/-! # Actions as scripts

An action is written with the operations that it is offered: it looks at the match, sends things
out, looks at payloads and enters states. Written down as a script, it can also be read against a
plain history of the values that were stored for the states, in which nothing is ever taken out
and the latest value counts. The table of payloads that a session keeps says the same as that
history, whatever the scripts do. -/

namespace DerivativeLexer

variable {τ π : Type}

/-- States with payloads of their own types, and how each payload is kept. -/
structure Stateful (π : Type) where
  Name : Type
  Value : Name → Type
  decideEq : DecidableEq Name
  slot : (i : Name) → Slot π (Value i)
  state_injective : ∀ {i j}, (slot i).state = (slot j).state → i = j
  unwrap_wrap : ∀ i x, (slot i).unwrap? ((slot i).wrap x) = some x

instance (S : Stateful π) : DecidableEq S.Name := S.decideEq

/-! ### Histories -/

namespace Stateful

variable (S : Stateful π)

/-- A value that was stored for a state. -/
abbrev Stored := (i : S.Name) × S.Value i

/-- The value stored last for a state. The latest value is the first of the history. -/
def latest (i : S.Name) : List S.Stored → Option (S.Value i)
  | [] => none
  | stored :: earlier => if h : stored.1 = i then some (h ▸ stored.2) else latest i earlier

def current (history : List S.Stored) (i : S.Name) : S.Value i :=
  (S.latest i history).getD (S.slot i).initial

/-- The history as it looks while the payload of a state is taken out. -/
def without (i : S.Name) (history : List S.Stored) : List S.Stored :=
  history.filter fun stored => stored.1 ≠ i

/-- The payloads are the values that were stored last. -/
def Keeps (payloads : Payloads π) (history : List S.Stored) : Prop :=
  ∀ i, payloads.get? (S.slot i).state = (S.latest i history).map (S.slot i).wrap

variable {S} {i j : S.Name} {history : List S.Stored} {payloads : Payloads π}

@[simp] theorem latest_cons_self (x : S.Value i) : S.latest i (⟨i, x⟩ :: history) = some x := by
  simp [latest]

theorem latest_cons_of_ne (h : j ≠ i) (x : S.Value j) :
    S.latest i (⟨j, x⟩ :: history) = S.latest i history := by
  simp [latest, h]

theorem latest_append (later : List S.Stored) :
    S.latest i (later ++ history) = (S.latest i later).or (S.latest i history) := by
  induction later with
  | nil => rfl
  | cons stored rest ih =>
    rw [List.cons_append, latest, latest]
    by_cases h : stored.1 = i
    · rw [dif_pos h, dif_pos h, Option.some_or]
    · rw [dif_neg h, dif_neg h, ih]

theorem latest_without_self : S.latest i (S.without i history) = none := by
  induction history with
  | nil => rfl
  | cons stored earlier ih =>
    by_cases h : stored.1 = i
    · rw [without, List.filter_cons_of_neg (by simp [h])]
      exact ih
    · rw [without, List.filter_cons_of_pos (by simp [h]), latest, dif_neg h]
      exact ih

theorem latest_without_of_ne (hne : j ≠ i) :
    S.latest j (S.without i history) = S.latest j history := by
  induction history with
  | nil => rfl
  | cons stored earlier ih =>
    by_cases h : stored.1 = i
    · have hj : stored.1 ≠ j := fun hj => hne (hj.symm.trans h)
      rw [without, List.filter_cons_of_neg (by simp [h]), latest, dif_neg hj]
      exact ih
    · rw [without, List.filter_cons_of_pos (by simp [h]), latest, latest]
      by_cases hj : stored.1 = j
      · rw [dif_pos hj, dif_pos hj]
      · rw [dif_neg hj, dif_neg hj]
        exact ih

theorem keeps_empty : S.Keeps Payloads.empty [] := fun _ => rfl

namespace Keeps

variable (h : S.Keeps payloads history)

include h

theorem read (i : S.Name) : (S.slot i).read payloads = S.current history i := by
  rw [Slot.read, h i, current]
  cases S.latest i history with
  | none => rfl
  | some x => rw [Option.map_some, Option.bind_some, S.unwrap_wrap]

theorem set (i : S.Name) (x : S.Value i) :
    S.Keeps (payloads.set (S.slot i).state ((S.slot i).wrap x)) (⟨i, x⟩ :: history) := by
  intro j
  by_cases hj : j = i
  · subst hj
    rw [Payloads.get?_set_self, latest_cons_self, Option.map_some]
  · have hstate : (S.slot j).state ≠ (S.slot i).state := fun hs => hj (S.state_injective hs)
    rw [Payloads.get?_set_of_ne payloads hstate, latest_cons_of_ne (Ne.symm hj)]
    exact h j

theorem erase (i : S.Name) :
    S.Keeps (payloads.erase (S.slot i).state) (S.without i history) := by
  intro j
  by_cases hj : j = i
  · subst hj
    rw [Payloads.get?_erase_self, latest_without_self, Option.map_none]
  · have hstate : (S.slot j).state ≠ (S.slot i).state := fun hs => hj (S.state_injective hs)
    rw [Payloads.get?_erase_of_ne payloads hstate, latest_without_of_ne hj]
    exact h j

omit h in
/-- A payload that was taken out does not matter once its state has a new one. -/
theorem of_without {later : List S.Stored}
    (h : S.Keeps payloads (later ++ S.without i history)) (hlatest : (S.latest i later).isSome) :
    S.Keeps payloads (later ++ history) := by
  intro j
  have hj := h j
  rw [latest_append] at hj ⊢
  by_cases hji : j = i
  · subst hji
    obtain ⟨x, hx⟩ := Option.isSome_iff_exists.1 hlatest
    rw [hx, Option.some_or] at hj ⊢
    exact hj
  · rwa [latest_without_of_ne hji] at hj

end Keeps

end Stateful

namespace Slot

variable {σ : Type} (slot : Slot π σ) (x : σ) (m : Matched) {o : Outbox τ π}

theorem run_putBack_of_some {stored : π} (h : o.payloads.get? slot.state = some stored) :
    (((slot.putBack x : Act τ π Unit).run m).run o).2 = o := by
  unfold putBack
  dsimp only [modify, modifyGet, MonadStateOf.modifyGet, StateT.modifyGet, StateT.run, ReaderT.run,
    monadLift, MonadLift.monadLift]
  rw [h]
  rfl

theorem run_putBack_of_none (h : o.payloads.get? slot.state = none) :
    (((slot.putBack x : Act τ π Unit).run m).run o).2 =
      { o with payloads := o.payloads.set slot.state (slot.wrap x) } := by
  unfold putBack
  dsimp only [modify, modifyGet, MonadStateOf.modifyGet, StateT.modifyGet, StateT.run, ReaderT.run,
    monadLift, MonadLift.monadLift]
  rw [h]
  rfl

end Slot

/-! ### Scripts -/

/-- A part of an action, step by step; what it does next may depend on what it has seen. -/
inductive Script (S : Stateful π) (τ α : Type) where
  | done (answer : α)
  | text (next : List Char → Script S τ α)
  | span (next : Span → Script S τ α)
  /-- Looks at the number of items emitted so far. -/
  | emitted (next : Nat → Script S τ α)
  | send (effect : Effect τ) (next : Script S τ α)
  | payload (i : S.Name) (next : S.Value i → Script S τ α)
  | enter (i : S.Name) (x : S.Value i) (next : StateId → Script S τ α)

def Effect.isEmit : Effect τ → Bool
  | .emit _ => true
  | _ => false

namespace Script

variable {S : Stateful π} {α : Type}

def act : Script S τ α → Act τ π α
  | .done answer => pure answer
  | .text next => do (next (← Act.text)).act
  | .span next => do (next (← Act.span)).act
  | .emitted next => do (next (← Act.emitted)).act
  | .send effect next => do
    Act.send effect
    next.act
  | .payload i next => do (next (← (S.slot i).payload)).act
  | .enter i x next => do (next (← (S.slot i).enter x)).act

/-- What a script comes to: its answer, what it has sent out, and the values that were stored, the
latest first. -/
structure Outcome (S : Stateful π) (τ α : Type) where
  answer : α
  effects : List (Effect τ)
  stored : List S.Stored

/-- Reads a script against a history, behind what was sent out before. -/
def read (m : Matched) : Script S τ α → List (Effect τ) → List S.Stored → Outcome S τ α
  | .done answer, _, _ => ⟨answer, [], []⟩
  | .text next, sent, history => (next m.text).read m sent history
  | .span next, sent, history => (next m.span).read m sent history
  | .emitted next, sent, history => (next (sent.countP Effect.isEmit)).read m sent history
  | .send effect next, sent, history =>
    let later := next.read m (sent ++ [effect]) history
    { later with effects := effect :: later.effects }
  | .payload i next, sent, history => (next (S.current history i)).read m sent history
  | .enter i x next, sent, history =>
    let later := (next (S.slot i).state).read m sent (⟨i, x⟩ :: history)
    { later with stored := later.stored ++ [⟨i, x⟩] }

/-- The action of a script does what the script comes to, and the payloads keep up with the
history. -/
theorem run_act (script : Script S τ α) (m : Matched) {o : Outbox τ π} {history : List S.Stored}
    (h : S.Keeps o.payloads history) :
    ((script.act.run m).run o).1 = (script.read m o.effects history).answer ∧
      ((script.act.run m).run o).2.effects =
        o.effects ++ (script.read m o.effects history).effects ∧
      S.Keeps ((script.act.run m).run o).2.payloads
        ((script.read m o.effects history).stored ++ history) := by
  induction script generalizing o history with
  | done answer => exact ⟨rfl, (List.append_nil _).symm, h⟩
  | text next ih => exact ih m.text h
  | span next ih => exact ih m.span h
  | emitted next ih => exact ih _ h
  | send effect next ih =>
    obtain ⟨hanswer, heffects, hkeeps⟩ := ih (o := { o with effects := o.effects ++ [effect] }) h
    refine ⟨hanswer, heffects.trans ?_, hkeeps⟩
    rw [read, List.append_assoc, List.singleton_append]
  | payload i next ih =>
    have hread := h.read i
    rw [read, ← hread]
    exact ih _ h
  | enter i x next ih =>
    obtain ⟨hanswer, heffects, hkeeps⟩ := ih (S.slot i).state
      (o := { o with payloads := o.payloads.set (S.slot i).state ((S.slot i).wrap x) }) (h.set i x)
    refine ⟨hanswer, heffects, ?_⟩
    rw [read, List.append_assoc, List.singleton_append]
    exact hkeeps

end Script

/-! ### Rules -/

/-- The action of a rule: it leaves the payload of its state where it is, or it works on a copy of
the payload of a state. -/
inductive Written (S : Stateful π) (τ : Type) where
  | plain (body : Script S τ StateId)
  | update (i : S.Name) (body : S.Value i → Script S τ (StateId × S.Value i))

namespace Written

variable {S : Stateful π}

def action : Written S τ → Act τ π StateId
  | .plain body => body.act
  | .update i body => (S.slot i).update fun x => (body x).act

/-- What an update does with the value `x`. It does not see its own payload unless it enters the
state itself. -/
def own (m : Matched) (history : List S.Stored) {i : S.Name} (x : S.Value i)
    (body : S.Value i → Script S τ (StateId × S.Value i)) :
    Script.Outcome S τ (StateId × S.Value i) :=
  (body x).read m [] (S.without i history)

/-- What the action comes to. An update works on the latest value of its state, and its working
copy is stored unless it has entered the state itself. -/
def read (m : Matched) (history : List S.Stored) : Written S τ → Script.Outcome S τ StateId
  | .plain body => body.read m [] history
  | .update i body =>
    let own := own m history (S.current history i) body
    { answer := own.answer.1
      effects := own.effects
      stored :=
        if (S.latest i own.stored).isSome then own.stored else ⟨i, own.answer.2⟩ :: own.stored }

theorem latest_update {m : Matched} {history : List S.Stored} {i : S.Name}
    {body : S.Value i → Script S τ (StateId × S.Value i)} :
    let done := own m history (S.current history i) body
    S.latest i (read m history (.update i body)).stored =
      some ((S.latest i done.stored).getD done.answer.2) := by
  intro done
  simp only [read]
  change S.latest i (if (S.latest i done.stored).isSome then _ else _) = _
  cases hlatest : S.latest i done.stored with
  | none => exact Stateful.latest_cons_self _
  | some x => exact hlatest

theorem latest_update_of_ne {m : Matched} {history : List S.Stored} {i j : S.Name}
    {body : S.Value i → Script S τ (StateId × S.Value i)} (hne : j ≠ i) :
    S.latest j (read m history (.update i body)).stored =
      S.latest j (own m history (S.current history i) body).stored := by
  simp only [read]
  split
  · rfl
  · exact Stateful.latest_cons_of_ne (Ne.symm hne) _

/-- The action of a rule does what it comes to by the history. -/
theorem perform_action (written : Written S τ) (m : Matched) {payloads : Payloads π}
    {history : List S.Stored} (h : S.Keeps payloads history) :
    (written.action.perform m payloads).1 = (written.read m history).answer ∧
      (written.action.perform m payloads).2.effects = (written.read m history).effects ∧
      S.Keeps (written.action.perform m payloads).2.payloads
        ((written.read m history).stored ++ history) := by
  cases written with
  | plain body => exact body.run_act m (o := ⟨[], payloads⟩) h
  | update i body =>
    obtain ⟨hanswer, heffects, hkeeps⟩ := (body (S.current history i)).run_act m
      (o := ⟨[], payloads.erase (S.slot i).state⟩) (h.erase i)
    have hperform : (action (.update i body)).perform m payloads =
        let done := ((body ((S.slot i).read payloads)).act.run m).run
          ⟨[], payloads.erase (S.slot i).state⟩
        (done.1.1, ((((S.slot i).putBack done.1.2 : Act τ π Unit).run m).run done.2).2) := rfl
    rw [hperform, h.read i]
    generalize (((body (S.current history i)).act.run m).run
      ⟨[], payloads.erase (S.slot i).state⟩) = done at hanswer heffects hkeeps
    obtain ⟨answer, o⟩ := done
    have hlatest := hkeeps i
    rw [Stateful.latest_append, Stateful.latest_without_self, Option.or_none] at hlatest
    simp only [List.nil_append] at hanswer heffects hkeeps hlatest
    have hown : (body (S.current history i)).read m [] (S.without i history) =
        own m history (S.current history i) body := rfl
    rw [hown] at hanswer heffects hkeeps hlatest
    simp only [read]
    subst hanswer
    cases hentered : S.latest i (own m history (S.current history i) body).stored with
    | none =>
      rw [hentered, Option.map_none] at hlatest
      rw [Slot.run_putBack_of_none _ _ _ hlatest]
      exact ⟨rfl, heffects, (hkeeps.set i _).of_without (by simp)⟩
    | some x =>
      rw [hentered, Option.map_some] at hlatest
      rw [Slot.run_putBack_of_some _ _ _ hlatest]
      exact ⟨rfl, heffects, hkeeps.of_without (by simp [hentered])⟩

end Written

/-! ### Tables -/

/-- How the actions of a table are written. -/
structure Scripts (S : Stateful π) (t : RuleTable τ π) where
  written : StateId → Nat → Written S τ
  action_eq : ∀ {s index rule}, (t.rules s)[index]? = some rule →
    rule.action = (written s index).action

namespace Scripts

variable {S : Stateful π} {t : RuleTable τ π} (scripts : Scripts S t)

/-- A table that is written down state by state, with the pattern and the action of each rule. -/
def table (states : List (String × List (Language × Written S τ))) : RuleTable τ π :=
  ⟨states.map fun st => ⟨st.1, st.2.map fun rule => ⟨rule.1, rule.2.action⟩⟩⟩

def ofTable (states : List (String × List (Language × Written S τ))) :
    Scripts S (table states) where
  written s index :=
    (((states[s.index]?).bind fun st => st.2[index]?).map (·.2)).getD
      (.plain (.done RuleTable.initial))
  action_eq := by
    intro s index rule hrule
    rw [RuleTable.rules, table, List.getElem?_map] at hrule
    cases hstate : states[s.index]? with
    | none =>
      rw [hstate] at hrule
      cases hrule
    | some st =>
      rw [hstate, Option.map_some] at hrule
      obtain ⟨written, hwritten, rfl⟩ := Option.map_eq_some_iff.1
        ((List.getElem?_map ..).symm.trans hrule)
      rw [Option.bind_some, hwritten]
      rfl

/-- What the action of a firing comes to, if `before` was stored so far. -/
def outcome (before : List S.Stored) (firing : Firing τ π) : Script.Outcome S τ StateId :=
  (scripts.written firing.state firing.rule).read firing.matched before

/-- Everything that the firings store, one after the other. -/
def history (firings : List (Firing τ π)) : List S.Stored :=
  firings.foldl (fun before firing => (scripts.outcome before firing).stored ++ before) []

theorem history_snoc (firings : List (Firing τ π)) (firing : Firing τ π) :
    scripts.history (firings ++ [firing]) =
      (scripts.outcome (scripts.history firings) firing).stored ++ scripts.history firings := by
  rw [history, List.foldl_append]
  rfl

/-- The firing does what its action comes to, if `before` was stored so far. -/
structure Obeys (before : List S.Stored) (firing : Firing τ π) : Prop where
  effects_eq : firing.effects = (scripts.outcome before firing).effects
  next_eq : firing.next = (scripts.outcome before firing).answer
  /-- An update is given the latest value, and leaves the value that it has entered itself, or its
  working copy. -/
  update_eq : ∀ {i body}, scripts.written firing.state firing.rule = .update i body →
    let own := Written.own firing.matched before (S.current before i) body
    firing.effects = own.effects ∧ firing.next = own.answer.1 ∧
      (S.slot i).read firing.payloads = (S.latest i own.stored).getD own.answer.2 ∧
      ∀ j, j ≠ i → (S.slot j).read firing.payloads = S.current (own.stored ++ before) j
  /-- The payload of a state that is neither entered nor updated stays as it is. -/
  frame : ∀ j, S.latest j (scripts.outcome before firing).stored = none →
    (S.slot j).read firing.payloads = S.current before j

variable {scripts}

theorem obeys_of_fire? {s : StateId} {index : Nat} {m : Matched} {payloads : Payloads π}
    {before : List S.Stored} {firing : Firing τ π}
    (hfire : t.fire? s index m payloads = some firing) (h : S.Keeps payloads before) :
    scripts.Obeys before firing ∧
      S.Keeps firing.payloads ((scripts.outcome before firing).stored ++ before) := by
  obtain ⟨rule, hrule, rfl⟩ := Option.map_eq_some_iff.1 hfire
  obtain ⟨hanswer, heffects, hkeeps⟩ := (scripts.written s index).perform_action m h
  rw [← scripts.action_eq hrule] at hanswer heffects hkeeps
  refine ⟨⟨heffects, hanswer, ?_, ?_⟩, hkeeps⟩
  · intro i body hwritten own
    have hwritten' : scripts.written s index = .update i body := hwritten
    rw [hwritten'] at hanswer heffects hkeeps
    refine ⟨heffects, hanswer, ?_, fun j hj => ?_⟩
    · rw [hkeeps.read, Stateful.current, Stateful.latest_append, Written.latest_update,
        Option.some_or, Option.getD_some]
    · rw [hkeeps.read, Stateful.current, Stateful.current, Stateful.latest_append,
        Stateful.latest_append, Written.latest_update_of_ne hj]
  · intro j hj
    have hnone : S.latest j ((scripts.written s index).read m before).stored = none := hj
    rw [hkeeps.read, Stateful.current, Stateful.latest_append, hnone, Option.none_or]
    rfl

end Scripts

end DerivativeLexer
