import DerivativeLexer.Session.Network
import Mathlib.Tactic.SplitIfs

/-! # What is fixed in a network

Tasks change what sources hold and how far sessions have come. They do not change the lexer, who
subscribes to which source, which session reads which source, or what a listener asks for; of a
listener only the budget shrinks. This fixed part is the wiring of the network, and whatever is
said in terms of it, such as what can be asked for at all, holds for as long as tasks are done. -/

namespace DerivativeLexer

variable {τ π : Type}

/-- A subscriber without its budget: a session, or what a listener asks for. -/
def Subscriber.wiring : Subscriber → Nat ⊕ List Request
  | .session x => .inl x
  | .listener r => .inr r.requests

/-- The source that a session reads, and what the listeners on its output ask for. -/
def Session.wiring (s : Session τ π) : Nat × List (List Request) :=
  (s.input, s.listeners.map (·.requests))

structure Wiring (τ π : Type) where
  lexer : Lexer τ π
  inputs : Nat → Option (List (Nat ⊕ List Request))
  sessions : Nat → Option (Option (Nat × List (List Request)))

theorem Reaction.requests_hear {α : Type} (r : Reaction α) (items : List α) :
    (r.hear items).2.requests = r.requests := by
  unfold hear
  split
  · rfl
  · rfl

theorem Reaction.mem_hear {α : Type} {r : Reaction α} {items : List α} {q : Request}
    (h : q ∈ (r.hear items).1) : q ∈ r.requests := by
  unfold hear at h
  split at h
  · exact h
  · cases h

namespace Network

variable {n : Network τ π} {x y s t : Nat}

/-! ### Looking things up -/

theorem session?_modifySession_self (f : Session τ π → Session τ π) :
    (n.modifySession x f).session? x = (n.session? x).map f := by
  unfold session? modifySession
  rw [Array.getElem?_modify, if_pos rfl]
  cases n.sessions[x]? with
  | none => rfl
  | some o => rfl

theorem session?_modifySession_of_ne (h : y ≠ x) (f : Session τ π → Session τ π) :
    (n.modifySession y f).session? x = n.session? x := by
  unfold session? modifySession
  rw [Array.getElem?_modify, if_neg h]

theorem source?_modifySource_self (f : Source Char → Source Char) :
    (n.modifySource s f).source? s = (n.source? s).map f := by
  unfold source? modifySource
  rw [Array.getElem?_modify, if_pos rfl, Option.map_map, Option.map_map]
  rfl

theorem source?_modifySource_of_ne (h : t ≠ s) (f : Source Char → Source Char) :
    (n.modifySource t f).source? s = n.source? s := by
  unfold source? modifySource
  rw [Array.getElem?_modify, if_neg h]

theorem mem_inputTellings {text : List Char} {task : Task τ} (h : task ∈ n.inputTellings s text) :
    ∃ k, task = .tellInput s k text := by
  unfold inputTellings at h
  cases hi : n.inputs[s]? with
  | none =>
    rw [hi] at h
    cases h
  | some i =>
    rw [hi] at h
    obtain ⟨k, -, rfl⟩ := List.mem_map.1 h
    exact ⟨k, rfl⟩

theorem mem_outputTellings {items : List τ} {task : Task τ}
    (h : task ∈ n.outputTellings x items) : ∃ k, task = .tellOutput x k items := by
  unfold outputTellings at h
  cases hσ : n.session? x with
  | none =>
    rw [hσ] at h
    cases h
  | some σ =>
    rw [hσ] at h
    obtain ⟨k, -, rfl⟩ := List.mem_map.1 h
    exact ⟨k, rfl⟩

/-! ### The wiring -/

def wiring (n : Network τ π) : Wiring τ π where
  lexer := n.lexer
  inputs t := n.inputs[t]?.map fun i => i.subscribers.map Subscriber.wiring
  sessions y := n.sessions[y]?.map (Option.map Session.wiring)

theorem wiring_schedule (tasks : List (Task τ)) : (n.schedule tasks).wiring = n.wiring := rfl

theorem wiring_modifyInputs (t : Nat) (f : Input → Input)
    (h : ∀ i, n.inputs[t]? = some i →
      (f i).subscribers.map Subscriber.wiring = i.subscribers.map Subscriber.wiring) :
    { n with inputs := n.inputs.modify t f }.wiring = n.wiring := by
  have hinputs : ∀ k : Nat, (n.inputs.modify t f)[k]?.map
        (fun i : Input => i.subscribers.map Subscriber.wiring) =
      n.inputs[k]?.map fun i : Input => i.subscribers.map Subscriber.wiring := by
    intro k
    rw [Array.getElem?_modify]
    split_ifs with hk
    · subst hk
      cases hi : n.inputs[t]? with
      | none => rfl
      | some i => exact congrArg some (h i hi)
    · rfl
  unfold wiring
  simp only [hinputs]

theorem wiring_modifySource (t : Nat) (f : Source Char → Source Char) :
    (n.modifySource t f).wiring = n.wiring :=
  wiring_modifyInputs t _ fun _ _ => rfl

theorem wiring_modifySession (y : Nat) (f : Session τ π → Session τ π)
    (h : ∀ σ, n.session? y = some σ → (f σ).wiring = σ.wiring) :
    (n.modifySession y f).wiring = n.wiring := by
  have hsessions : ∀ k : Nat, (n.sessions.modify y (Option.map f))[k]?.map
        (Option.map Session.wiring) =
      n.sessions[k]?.map (Option.map Session.wiring) := by
    intro k
    rw [Array.getElem?_modify]
    split_ifs with hk
    · subst hk
      cases ho : n.sessions[y]? with
      | none => rfl
      | some o =>
        cases o with
        | none => rfl
        | some σ =>
          have hσ : n.session? y = some σ := by
            rw [session?, ho]
            rfl
          exact congrArg (some ∘ some) (h σ hσ)
    · rfl
  unfold wiring modifySession
  simp only [hsessions]

theorem map_set_of_eq {α β : Type} {f : α → β} {l : List α} {k : Nat} {a b : α}
    (hk : l[k]? = some a) (hf : f b = f a) : (l.set k b).map f = l.map f := by
  induction l generalizing k with
  | nil => rfl
  | cons c rest ih =>
    cases k with
    | zero =>
      obtain rfl := Option.some.inj hk
      rw [List.set_cons_zero, List.map_cons, List.map_cons, hf]
    | succ k => rw [List.set_cons_succ, List.map_cons, List.map_cons, ih hk]

/-! ### Tasks keep the wiring -/

theorem wiring_wake (x : Nat) : (n.wake x).wiring = n.wiring := by
  unfold wake
  cases n.session? x with
  | none => rfl
  | some σ =>
    simp only
    split_ifs
    · rfl
    · rw [wiring_schedule]
      exact wiring_modifySession x _ fun _ _ => rfl

theorem wiring_grant (r : Request) : (n.grant r).wiring = n.wiring := by
  cases r with
  | source r =>
    cases r with
    | push s text =>
      simp only [grant]
      cases n.source? s with
      | none => rfl
      | some source =>
        simp only
        split_ifs
        · rfl
        · rw [wiring_schedule]
          exact wiring_modifySource s _
    | close s =>
      simp only [grant]
      rw [wiring_schedule]
      exact wiring_modifySource s _
  | cancel x =>
    simp only [grant]
    rw [wiring_wake]
    exact wiring_modifySession x _ fun _ _ => rfl

theorem wiring_tellInput (s k : Nat) (text : List Char) :
    (n.tellInput s k text).wiring = n.wiring := by
  unfold tellInput
  cases hk : n.inputs[s]?.bind (·.subscribers[k]?) with
  | none => rfl
  | some u =>
    cases u with
    | session x => exact wiring_wake x
    | listener r =>
      simp only
      rw [wiring_schedule]
      refine wiring_modifyInputs s _ fun i hi => ?_
      rw [hi, Option.bind_some] at hk
      exact map_set_of_eq hk (congrArg Sum.inr (r.requests_hear text))

theorem wiring_tellOutput (x k : Nat) (items : List τ) :
    (n.tellOutput x k items).wiring = n.wiring := by
  unfold tellOutput
  cases hx : n.session? x with
  | none => rfl
  | some σ =>
    simp only
    cases hk : σ.listeners[k]? with
    | none => rfl
    | some r =>
      simp only
      rw [wiring_schedule]
      refine wiring_modifySession (n := { n with notices := _ }) x _ fun σ' hσ' => ?_
      obtain rfl : σ = σ' := Option.some.inj (hx.symm.trans hσ')
      exact congrArg (Prod.mk σ.input) (map_set_of_eq hk (r.requests_hear items))

theorem wiring_emit (x : Nat) (item : τ) : (n.emit x item).wiring = n.wiring := by
  unfold emit
  cases n.session? x with
  | none => rfl
  | some σ =>
    simp only
    split_ifs
    · rfl
    · rw [wiring_schedule]
      exact wiring_modifySession x _ fun _ _ => rfl

theorem wiring_close (x : Nat) : (n.close x).wiring = n.wiring := by
  unfold close
  rw [wiring_schedule]
  exact wiring_modifySession x _ fun _ _ => rfl

theorem wiring_drain (x : Nat) : (n.drain x).wiring = n.wiring := by
  unfold drain
  cases n.session? x with
  | none => rfl
  | some σ =>
    simp only
    split_ifs
    · rfl
    · rfl
    · split
      · rfl
      · rw [wiring_schedule]
        refine (wiring_modifySession x _ ?_).trans (wiring_modifySource _ _)
        exact fun _ _ => rfl
      · rw [wiring_schedule]
        exact wiring_modifySession x _ fun _ _ => rfl
      · rw [wiring_schedule]
        exact wiring_modifySession x _ fun _ _ => rfl
      · rw [wiring_schedule]
        refine (wiring_modifySession x _ ?_).trans (wiring_modifySource _ _)
        exact fun _ _ => rfl

theorem wiring_proceed (x : Nat) (replays : Bool) : (n.proceed x replays).wiring = n.wiring := by
  unfold proceed
  rw [wiring_schedule]
  exact wiring_modifySession x _ fun _ _ => rfl

theorem wiring_finish (x : Nat) (status : SessionStatus) :
    (n.finish x status).wiring = n.wiring := by
  unfold finish
  cases n.session? x with
  | none => rfl
  | some σ =>
    simp only
    rw [wiring_schedule]
    exact wiring_modifySession x _ fun _ _ => rfl

theorem wiring_perform (task : Task τ) : (n.perform task).wiring = n.wiring := by
  cases task with
  | request r => exact wiring_grant r
  | tellInput s k text => exact wiring_tellInput s k text
  | tellOutput x k items => exact wiring_tellOutput x k items
  | emit x item => exact wiring_emit x item
  | close x => exact wiring_close x
  | drain x => exact wiring_drain x
  | proceed x replays => exact wiring_proceed x replays
  | finish x status => exact wiring_finish x status
  | release x => exact wiring_modifySession x _ fun _ _ => rfl

theorem wiring_step : n.step.wiring = n.wiring := by
  unfold step
  cases n.agenda with
  | nil => rfl
  | cons task rest => exact wiring_perform (n := { n with agenda := rest }) task

theorem wiring_settle (fuel : Nat) : (n.settle fuel).wiring = n.wiring := by
  induction fuel generalizing n with
  | zero => rfl
  | succ fuel ih =>
    rw [settle]
    split_ifs
    · rfl
    · exact ih.trans wiring_step

/-! ### What is asked for -/

/-- Whatever an action or a listener asks for has the property `P`. -/
structure Asks (n : Network τ π) (P : Request → Prop) : Prop where
  actions : ∀ state, ∀ rule ∈ n.lexer.rules.rules state, ∀ matched payloads r,
    .request r ∈ (rule.action.perform matched payloads).2.effects → P (.source r)
  subscribers : ∀ (t : Nat) i, n.inputs[t]? = some i → ∀ r, .listener r ∈ i.subscribers →
    ∀ q ∈ r.requests, P q
  listeners : ∀ y σ, n.session? y = some σ → ∀ r ∈ σ.listeners, ∀ q ∈ r.requests, P q

section Wired

variable {n' : Network τ π} {P : Request → Prop}

theorem session?_wiring {y : Nat} {σ : Session τ π} (h : n'.wiring = n.wiring)
    (hσ : n'.session? y = some σ) : ∃ σ₀, n.session? y = some σ₀ ∧ σ₀.wiring = σ.wiring := by
  have hentry := congrFun (congrArg Wiring.sessions h) y
  simp only [wiring] at hentry
  obtain ⟨o, ho, rfl⟩ : ∃ o, n'.sessions[y]? = some o ∧ o = some σ := by
    rw [session?, Option.join_eq_some_iff] at hσ
    exact ⟨_, hσ, rfl⟩
  rw [ho, Option.map_some, Option.map_some, eq_comm, Option.map_eq_some_iff] at hentry
  obtain ⟨o, ho', hentry⟩ := hentry
  obtain ⟨σ₀, rfl, hσ₀⟩ := Option.map_eq_some_iff.1 hentry
  refine ⟨σ₀, ?_, hσ₀⟩
  rw [session?, ho']
  rfl

theorem size_of_wiring_eq (h : n'.wiring = n.wiring) : n'.sessions.size = n.sessions.size := by
  have hsome : ∀ (m : Network τ π) (z : Nat), m.sessions[z]?.isSome = true ↔
      z < m.sessions.size := by
    intro m z
    rw [Option.isSome_iff_ne_none, ne_eq, Array.getElem?_eq_none_iff, Nat.not_le]
  have hlt : ∀ z, z < n'.sessions.size ↔ z < n.sessions.size := by
    intro z
    have hentry := congrArg Option.isSome (congrFun (congrArg Wiring.sessions h) z)
    simp only [wiring, Option.isSome_map] at hentry
    rw [← hsome, ← hsome, hentry]
  apply Nat.le_antisymm
  · exact Nat.not_lt.1 fun h => Nat.lt_irrefl _ ((hlt _).1 h)
  · exact Nat.not_lt.1 fun h => Nat.lt_irrefl _ ((hlt _).2 h)

theorem Asks.of_wiring_eq (h : n.Asks P) (hwiring : n'.wiring = n.wiring) : n'.Asks P where
  actions := by
    have hlexer : n'.lexer = n.lexer := congrArg Wiring.lexer hwiring
    rw [hlexer]
    exact h.actions
  subscribers := by
    intro t i hi r hr q hq
    have hentry := congrFun (congrArg Wiring.inputs hwiring) t
    simp only [wiring] at hentry
    rw [hi, Option.map_some, eq_comm, Option.map_eq_some_iff] at hentry
    obtain ⟨i₀, hi₀, hentry⟩ := hentry
    have hmem : Sum.inr r.requests ∈ i₀.subscribers.map Subscriber.wiring := by
      rw [hentry]
      exact List.mem_map_of_mem hr
    obtain ⟨u, hu, hru⟩ := List.mem_map.1 hmem
    cases u with
    | session y => cases hru
    | listener r₀ =>
      rw [← Sum.inr.inj hru] at hq
      exact h.subscribers t i₀ hi₀ r₀ hu q hq
  listeners := by
    intro y σ hσ r hr q hq
    obtain ⟨σ₀, hσ₀, hsame⟩ := session?_wiring hwiring hσ
    have hmem : r.requests ∈ σ₀.listeners.map (·.requests) := by
      rw [show σ₀.listeners.map (·.requests) = σ.listeners.map (·.requests) from
        congrArg Prod.snd hsame]
      exact List.mem_map_of_mem hr
    obtain ⟨r₀, hr₀, hrequests⟩ := List.mem_map.1 hmem
    rw [← hrequests] at hq
    exact h.listeners y σ₀ hσ₀ r₀ hr₀ q hq

end Wired

/-! ### What operations add -/

section Operations

variable {P : Request → Prop} {z : Nat} {σ : Session τ π}

theorem session?_launch (t offset : Nat) (reader : Reader Char)
    (hσ : (n.launch t offset reader).session? z = some σ) :
    n.session? z = some σ ∨ (z = n.sessions.size ∧ σ.listeners = [] ∧ σ.input = t) := by
  rw [session?, launch, schedule, Array.getElem?_push] at hσ
  split_ifs at hσ with hz
  · obtain rfl := Option.some.inj hσ
    exact .inr ⟨hz, rfl, rfl⟩
  · exact .inl hσ

theorem session?_launch_size (t offset : Nat) (reader : Reader Char) :
    (n.launch t offset reader).session? n.sessions.size = some
      ⟨t, .start n.lexer.rules offset, reader, .fresh, [], .stepping, false, true⟩ := by
  rw [session?, launch, schedule, Array.getElem?_push, if_pos rfl]
  rfl

theorem session?_listen {y : Nat} {r : Reaction τ} (hσ : (n.listen y r).session? z = some σ) :
    ∃ σ₀, n.session? z = some σ₀ ∧ σ.input = σ₀.input ∧
      ∀ r' ∈ σ.listeners, r' ∈ σ₀.listeners ∨ r' = r := by
  by_cases hz : y = z
  · subst hz
    rw [listen, session?_modifySession_self] at hσ
    obtain ⟨σ₀, hσ₀, rfl⟩ := Option.map_eq_some_iff.1 hσ
    refine ⟨σ₀, hσ₀, rfl, fun r' hr' => ?_⟩
    exact (List.mem_append.1 hr').imp_right List.mem_singleton.1
  · rw [listen, session?_modifySession_of_ne hz] at hσ
    exact ⟨σ, hσ, rfl, fun r' hr' => .inl hr'⟩

theorem session?_drop (y z : Nat) :
    (n.drop y).session? z = if y = z then none else n.session? z := by
  rw [session?, drop, Array.getElem?_modify]
  split_ifs
  · cases n.sessions[z]? with
    | none => rfl
    | some o => rfl
  · rfl

theorem session?_of_drop (hσ : (n.drop y).session? z = some σ) : n.session? z = some σ := by
  rw [session?_drop] at hσ
  split_ifs at hσ
  exact hσ

namespace Asks

theorem mono {Q : Request → Prop} (h : n.Asks P) (hPQ : ∀ q, P q → Q q) : n.Asks Q where
  actions := fun state rule hrule matched payloads r hr =>
    hPQ _ (h.actions state rule hrule matched payloads r hr)
  subscribers := fun t i hi r hr q hq => hPQ q (h.subscribers t i hi r hr q hq)
  listeners := fun y σ hσ r hr q hq => hPQ q (h.listeners y σ hσ r hr q hq)

theorem launch (h : n.Asks P) (t offset : Nat) (reader : Reader Char) :
    (n.launch t offset reader).Asks P := by
  refine ⟨h.actions, h.subscribers, fun z σ hσ r hr => ?_⟩
  rcases session?_launch t offset reader hσ with hσ | ⟨-, hnil, -⟩
  · exact h.listeners z σ hσ r hr
  · rw [hnil] at hr
    cases hr

theorem subscribe (h : n.Asks P) (t : Nat) {u : Subscriber}
    (hu : ∀ r, u = .listener r → ∀ q ∈ r.requests, P q) : (n.subscribe t u).Asks P := by
  refine ⟨h.actions, fun k i hi r hr q hq => ?_, h.listeners⟩
  rw [Network.subscribe, Array.getElem?_modify] at hi
  split_ifs at hi
  · obtain ⟨i₀, hi₀, rfl⟩ := Option.map_eq_some_iff.1 hi
    rcases List.mem_append.1 hr with hr | hr
    · exact h.subscribers k i₀ hi₀ r hr q hq
    · exact hu r (List.mem_singleton.1 hr).symm q hq
  · exact h.subscribers k i hi r hr q hq

theorem listen (h : n.Asks P) (y : Nat) {r : Reaction τ} (hr : ∀ q ∈ r.requests, P q) :
    (n.listen y r).Asks P := by
  refine ⟨h.actions, h.subscribers, fun z σ hσ r' hr' q hq => ?_⟩
  obtain ⟨σ₀, hσ₀, -, hlisteners⟩ := session?_listen hσ
  rcases hlisteners r' hr' with hr' | rfl
  · exact h.listeners z σ₀ hσ₀ r' hr' q hq
  · exact hr q hq

theorem addSource (h : n.Asks P) (source : Source Char) : (n.addSource source).2.Asks P := by
  refine ⟨h.actions, fun t i hi r hr q hq => ?_, h.listeners⟩
  rw [Network.addSource, Array.getElem?_push] at hi
  split_ifs at hi
  · obtain rfl := Option.some.inj hi
    cases hr
  · exact h.subscribers t i hi r hr q hq

theorem drop (h : n.Asks P) (y : Nat) : (n.drop y).Asks P :=
  ⟨h.actions, h.subscribers, fun z σ hσ => h.listeners z σ (session?_of_drop hσ)⟩

end Asks

end Operations

end Network

end DerivativeLexer
