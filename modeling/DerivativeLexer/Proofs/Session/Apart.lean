import DerivativeLexer.Lexer.Run
import DerivativeLexer.Proofs.Lexer.Moves
import DerivativeLexer.Proofs.Session.Wiring

/-! # What leaves a session alone

A session is apart with its source when nobody else reads the source and no action or listener
asks anything of the two. Then every task that is not the session's own leaves the session and
the source as they are, and puts only such tasks on the agenda. -/

namespace DerivativeLexer

variable {τ π : Type}

/-- The request is not about the source `s` or the session `x`. -/
def Request.Spares (s x : Nat) : Request → Prop
  | .source (.push t _) | .source (.close t) => t ≠ s
  | .cancel y => y ≠ x

def Task.owner? : Task τ → Option Nat
  | .emit x _ | .close x | .drain x | .proceed x _ | .finish x _ | .release x => some x
  | .request _ | .tellInput _ _ _ | .tellOutput _ _ _ => none

/-- The task is not a part of the work of `x` and does not ask anything of `x` or `s`. -/
structure Task.Foreign (s x : Nat) (task : Task τ) : Prop where
  owner_ne : task.owner? ≠ some x
  spares : ∀ q, task = .request q → q.Spares s x

namespace Network

/-- Nobody but the session `x` reads the source `s`, and no action and no listener asks anything
of the two. -/
structure Apart (n : Network τ π) (s x : Nat) : Prop where
  asks : n.Asks (Request.Spares s x)
  readers : ∀ y σ, n.session? y = some σ → y ≠ x → σ.input ≠ s

/-- The session `x` is there and not cancelled, and with the source `s` it makes up a run. -/
structure Hosts (n : Network τ π) (s x : Nat) (busy : Bool) (run : SoloRun τ π) : Prop where
  source : n.source? s = some run.feed.source
  session : ∃ listeners, n.session? x =
    some ⟨s, run.engine, run.feed.reader, run.output, listeners, run.status, false, busy⟩

def Notifies (n : Network τ π) (s k x : Nat) : Prop :=
  n.inputs[s]?.bind (·.subscribers[k]?) = some (.session x)

section Wired

variable {n n' : Network τ π} {s x k : Nat}

theorem Apart.of_wiring_eq (h : n.Apart s x) (hwiring : n'.wiring = n.wiring) : n'.Apart s x where
  asks := h.asks.of_wiring_eq hwiring
  readers := by
    intro y σ hσ hy
    obtain ⟨σ₀, hσ₀, hsame⟩ := session?_wiring hwiring hσ
    rw [← show σ₀.input = σ.input from congrArg Prod.fst hsame]
    exact h.readers y σ₀ hσ₀ hy

theorem notifies_iff : n.Notifies s k x ↔ (n.wiring.inputs s).bind (·[k]?) = some (.inl x) := by
  simp only [Notifies, wiring]
  cases n.inputs[s]? with
  | none =>
    constructor
    · intro h
      cases h
    · intro h
      cases h
  | some i =>
    simp only [Option.bind_some, Option.map_some, List.getElem?_map]
    constructor
    · intro h
      rw [h]
      rfl
    · intro h
      obtain ⟨u, hu, hux⟩ := Option.map_eq_some_iff.1 h
      cases u with
      | session y =>
        rw [hu, Sum.inl.inj hux]
      | listener r => cases hux

theorem Notifies.of_wiring_eq (h : n.Notifies s k x) (hwiring : n'.wiring = n.wiring) :
    n'.Notifies s k x := by
  rw [notifies_iff] at h ⊢
  rw [hwiring]
  exact h

end Wired

/-! ### Changes elsewhere -/

/-- `n'` comes from `n` by changes elsewhere than in the source `s` and the session `x`. -/
structure Leaves (s x : Nat) (n n' : Network τ π) : Prop where
  hosts : ∀ {busy run}, n.Hosts s x busy run → n'.Hosts s x busy run
  agenda : ∃ added, n'.agenda = added ++ n.agenda ∧ ∀ task ∈ added, task.Foreign s x

section Changes

variable {n n' n'' : Network τ π} {s x t y : Nat}

namespace Leaves

theorem refl (n : Network τ π) : Leaves s x n n :=
  ⟨fun h => h, [], rfl, fun _ h => nomatch h⟩

theorem trans (h : Leaves s x n n') (h' : Leaves s x n' n'') : Leaves s x n n'' := by
  obtain ⟨hhosts, added, hadded, hforeign⟩ := h
  obtain ⟨hhosts', added', hadded', hforeign'⟩ := h'
  refine ⟨fun h => hhosts' (hhosts h), added' ++ added, ?_, ?_⟩
  · rw [hadded', hadded, List.append_assoc]
  · intro task htask
    rcases List.mem_append.1 htask with h | h
    · exact hforeign' task h
    · exact hforeign task h

theorem of_eq (hsource : n'.source? s = n.source? s) (hsession : n'.session? x = n.session? x)
    (hagenda : n'.agenda = n.agenda) : Leaves s x n n' where
  hosts := by
    intro busy run h
    exact ⟨hsource.trans h.source, by rw [hsession]; exact h.session⟩
  agenda := ⟨[], hagenda, fun _ h => nomatch h⟩

theorem schedule {tasks : List (Task τ)} (h : ∀ task ∈ tasks, task.Foreign s x) :
    Leaves s x n (n.schedule tasks) :=
  ⟨fun h => ⟨h.source, h.session⟩, tasks, rfl, h⟩

theorem modifySource (ht : t ≠ s) (f : Source Char → Source Char) :
    Leaves s x n (n.modifySource t f) :=
  .of_eq (source?_modifySource_of_ne ht f) rfl rfl

theorem modifySession (hy : y ≠ x) (f : Session τ π → Session τ π) :
    Leaves s x n (n.modifySession y f) :=
  .of_eq rfl (session?_modifySession_of_ne hy f) rfl

theorem modifyListeners (y : Nat) (f : Session τ π → List (Reaction τ)) :
    Leaves s x n (n.modifySession y fun σ => { σ with listeners := f σ }) := by
  refine ⟨fun {busy run} h => ⟨h.source, ?_⟩, [], rfl, fun _ h => nomatch h⟩
  obtain ⟨listeners, hσ⟩ := h.session
  by_cases hy : y = x
  · subst hy
    rw [session?_modifySession_self, hσ]
    exact ⟨_, rfl⟩
  · rw [session?_modifySession_of_ne hy, hσ]
    exact ⟨_, rfl⟩

theorem modifySubscribers (t : Nat) (f : Input → List Subscriber) :
    Leaves s x n
      { n with inputs := n.inputs.modify t fun i => { i with subscribers := f i } } := by
  refine .of_eq ?_ rfl rfl
  unfold source?
  simp only [Array.getElem?_modify]
  split_ifs
  · rw [Option.map_map]
    rfl
  · rfl

end Leaves

theorem foreign_inputTellings (t : Nat) (text : List Char) :
    ∀ task ∈ n.inputTellings t text, task.Foreign s x := by
  intro task h
  obtain ⟨k, rfl⟩ := mem_inputTellings h
  exact ⟨by rintro ⟨⟩, by rintro q ⟨⟩⟩

theorem foreign_outputTellings (y : Nat) (items : List τ) :
    ∀ task ∈ n.outputTellings y items, task.Foreign s x := by
  intro task h
  obtain ⟨k, rfl⟩ := mem_outputTellings h
  exact ⟨by rintro ⟨⟩, by rintro q ⟨⟩⟩

theorem foreign_requests {requests : List Request} (h : ∀ q ∈ requests, q.Spares s x) :
    ∀ task ∈ requests.map (.request : Request → Task τ), task.Foreign s x := by
  intro task htask
  obtain ⟨q, hq, rfl⟩ := List.mem_map.1 htask
  refine ⟨by rintro ⟨⟩, fun q' hq' => ?_⟩
  rw [← Task.request.inj hq']
  exact h q hq

theorem foreign_of_owner (hy : y ≠ x) {task : Task τ} (h : task.owner? = some y) :
    task.Foreign s x := by
  refine ⟨?_, ?_⟩
  · rw [h]
    exact fun hxy => hy (Option.some.inj hxy)
  · rintro q rfl
    cases h

theorem Asks.of_effects {P : Request → Prop} (hasks : n.Asks P) {firing : Firing τ π}
    (hfires : n.lexer.rules.Fires firing) (y : Nat) {q : Request}
    (hq : .request q ∈ firing.effects.map (effectTask y)) : P q := by
  obtain ⟨state, rule, matched, payloads, hrule, heffects⟩ := hfires.exists_rule
  obtain ⟨effect, heffect, htask⟩ := List.mem_map.1 hq
  cases effect with
  | emit item => cases htask
  | close => cases htask
  | request r =>
    rw [heffects] at heffect
    rw [← Task.request.inj htask]
    exact hasks.actions state rule hrule matched payloads r heffect

theorem foreign_effects (hapart : n.Apart s x) (hy : y ≠ x) {firing : Firing τ π}
    (hfires : n.lexer.rules.Fires firing) :
    ∀ task ∈ firing.effects.map (effectTask y), task.Foreign s x := by
  intro task htask
  refine ⟨?_, fun q hq => hapart.asks.of_effects hfires y (hq ▸ htask)⟩
  obtain ⟨effect, -, rfl⟩ := List.mem_map.1 htask
  cases effect with
  | emit item => exact (foreign_of_owner (s := s) hy rfl).owner_ne
  | close => exact (foreign_of_owner (s := s) hy rfl).owner_ne
  | request r => rintro ⟨⟩

/-! ### Tasks elsewhere -/

theorem leaves_wake (hy : y ≠ x) : Leaves s x n (n.wake y) := by
  unfold wake
  cases n.session? y with
  | none => exact .refl n
  | some σ =>
    simp only
    split_ifs
    · exact .refl n
    · refine (Leaves.modifySession hy _).trans (.schedule fun task htask => ?_)
      obtain rfl := List.mem_singleton.1 htask
      exact foreign_of_owner hy rfl

theorem leaves_grant {r : Request} (hr : r.Spares s x) : Leaves s x n (n.grant r) := by
  cases r with
  | source r =>
    cases r with
    | push t text =>
      simp only [grant]
      cases n.source? t with
      | none => exact .refl n
      | some source =>
        simp only
        split_ifs
        · exact .refl n
        · exact (Leaves.modifySource hr _).trans (.schedule (foreign_inputTellings t text))
    | close t =>
      exact (Leaves.modifySource hr _).trans (.schedule (foreign_inputTellings t []))
  | cancel y => exact (Leaves.modifySession hr _).trans (leaves_wake hr)

theorem leaves_tellInput (hapart : n.Apart s x) {k : Nat} (hk : ¬n.Notifies t k x)
    (text : List Char) : Leaves s x n (n.tellInput t k text) := by
  unfold tellInput
  unfold Notifies at hk
  cases hu : n.inputs[t]?.bind (·.subscribers[k]?) with
  | none => exact .refl n
  | some u =>
    cases u with
    | session y =>
      refine leaves_wake fun hy => hk ?_
      rw [hu, hy]
    | listener r =>
      obtain ⟨i, hi, hr⟩ := Option.bind_eq_some_iff.1 hu
      have hspares := hapart.asks.subscribers t i hi r (List.mem_of_getElem? hr)
      refine (Leaves.modifySubscribers t _).trans (.schedule (foreign_requests fun q hq => ?_))
      exact hspares q (Reaction.mem_hear hq)

theorem leaves_tellOutput (hapart : n.Apart s x) (y k : Nat) (items : List τ) :
    Leaves s x n (n.tellOutput y k items) := by
  unfold tellOutput
  cases hσ : n.session? y with
  | none => exact .refl n
  | some σ =>
    simp only
    cases hr : σ.listeners[k]? with
    | none => exact .refl n
    | some r =>
      have hspares := hapart.asks.listeners y σ hσ r (List.mem_of_getElem? hr)
      have hnotice : Leaves s x n { n with notices := n.notices.push ⟨y, items, σ.status⟩ } :=
        .of_eq rfl rfl rfl
      refine (hnotice.trans (.modifyListeners y _)).trans
        (.schedule (foreign_requests fun q hq => ?_))
      exact hspares q (Reaction.mem_hear hq)

theorem leaves_emit (hy : y ≠ x) (item : τ) : Leaves s x n (n.emit y item) := by
  unfold emit
  cases n.session? y with
  | none => exact .refl n
  | some σ =>
    simp only
    split_ifs
    · exact .refl n
    · exact (Leaves.modifySession hy _).trans (.schedule (foreign_outputTellings y [item]))

theorem leaves_close (hy : y ≠ x) : Leaves s x n (n.close y) :=
  (Leaves.modifySession hy _).trans (.schedule (foreign_outputTellings y []))

theorem leaves_schedule_own (hy : y ≠ x) {task : Task τ} (h : task.owner? = some y) :
    Leaves s x n (n.schedule [task]) := by
  refine .schedule fun task' htask => ?_
  obtain rfl := List.mem_singleton.1 htask
  exact foreign_of_owner hy h

theorem leaves_drain (hapart : n.Apart s x) (hy : y ≠ x) : Leaves s x n (n.drain y) := by
  unfold drain
  cases hσ : n.session? y with
  | none => exact .refl n
  | some σ =>
    have hinput := hapart.readers y σ hσ hy
    have hfired : ∀ (n' : Network τ π) (firing : Firing τ π) (last : Task τ),
        n.lexer.rules.Fires firing → last.owner? = some y →
          Leaves s x n' (n'.schedule (firing.effects.map (effectTask y) ++ [last])) := by
      intro n' firing last hfires hlast
      refine .schedule fun task htask => ?_
      rcases List.mem_append.1 htask with h | h
      · exact foreign_effects hapart hy hfires task h
      · obtain rfl := List.mem_singleton.1 h
        exact foreign_of_owner hy hlast
    simp only
    split_ifs
    · exact leaves_schedule_own hy rfl
    · exact leaves_schedule_own hy rfl
    · cases hmove : σ.engine.move n.lexer.rules n.lexer.config
          ⟨(n.source? σ.input).getD .fresh, σ.reader⟩ with
      | rest => exact leaves_schedule_own hy rfl
      | read engine feed =>
        exact ((Leaves.modifySource hinput _).trans (.modifySession hy _)).trans
          (leaves_schedule_own hy rfl)
      | fire firing engine replays =>
        have hfires : n.lexer.rules.Fires firing := Engine.fires_move (by rw [hmove]; rfl)
        exact (Leaves.modifySession hy _).trans (hfired _ firing _ hfires rfl)
      | last firing engine =>
        have hfires : n.lexer.rules.Fires firing := Engine.fires_move (by rw [hmove]; rfl)
        exact (Leaves.modifySession hy _).trans (hfired _ firing _ hfires rfl)
      | fail error feed =>
        exact ((Leaves.modifySource hinput _).trans (.modifySession hy _)).trans
          (leaves_schedule_own hy rfl)

theorem leaves_finish (hy : y ≠ x) (status : SessionStatus) : Leaves s x n (n.finish y status) := by
  unfold finish
  cases n.session? y with
  | none => exact .refl n
  | some σ =>
    refine (Leaves.modifySession hy _).trans (.schedule fun task htask => ?_)
    apply foreign_of_owner hy
    split_ifs at htask
    · obtain rfl := List.mem_singleton.1 htask
      rfl
    · rcases List.mem_pair.1 htask with rfl | rfl
      · rfl
      · rfl

/-- A foreign task leaves the session alone, unless it tells the session about its source. -/
theorem leaves_perform (hapart : n.Apart s x) {task : Task τ} (hforeign : task.Foreign s x)
    (htells : ∀ t k text, task = .tellInput t k text → ¬n.Notifies t k x) :
    Leaves s x n (n.perform task) := by
  have howner : ∀ y, task.owner? = some y → y ≠ x := by
    rintro y hy rfl
    exact hforeign.owner_ne hy
  cases task with
  | request r => exact leaves_grant (hforeign.spares r rfl)
  | tellInput t k text => exact leaves_tellInput hapart (htells t k text rfl) text
  | tellOutput y k items => exact leaves_tellOutput hapart y k items
  | emit y item => exact leaves_emit (howner y rfl) item
  | close y => exact leaves_close (howner y rfl)
  | drain y => exact leaves_drain hapart (howner y rfl)
  | proceed y replays =>
    exact (Leaves.modifySession (howner y rfl) _).trans (leaves_schedule_own (howner y rfl) rfl)
  | finish y status => exact leaves_finish (howner y rfl) status
  | release y => exact Leaves.modifySession (howner y rfl) _

end Changes

end Network

end DerivativeLexer
