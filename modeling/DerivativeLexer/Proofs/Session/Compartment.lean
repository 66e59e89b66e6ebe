import DerivativeLexer.Proofs.Session.Apart
import DerivativeLexer.Proofs.Session.Lookup

/-! # What a network is to one of its sessions

A session and the sources that are its own make up a compartment. To the compartment a network is
what is left of it when everybody else is taken away: the session, its sources with all that are
told about them, its notices, and the tasks that are about any of these. Numbers are kept, so in
the place of somebody else there is an unused source or no session.

A task that is about the compartment and asks for nothing outside it is done on the rest of the
network as it is done on the whole. A task that is about somebody else, and that asks for nothing
inside the compartment, is not seen from there at all. -/

namespace DerivativeLexer

variable {τ π : Type}

structure Compartment where
  session : Nat
  sources : Nat → Bool

namespace Compartment

def hasRequest (p : Compartment) : Request → Bool
  | .source (.push t _) | .source (.close t) => p.sources t
  | .cancel y => y == p.session

def hasTask (p : Compartment) : Task τ → Bool
  | .request r => p.hasRequest r
  | .tellInput t _ _ => p.sources t
  | .tellOutput y _ _ | .emit y _ | .close y | .drain y | .proceed y _ | .finish y _ | .release y =>
    y == p.session

/-- The session of the compartment, and nobody else, reads its sources and is told about them. -/
structure Walled (p : Compartment) (n : Network τ π) : Prop where
  readers : ∀ y σ, n.session? y = some σ → p.sources σ.input = (y == p.session)
  subscribers : ∀ t k y, n.Notifies t k y → p.sources t = (y == p.session)

end Compartment

/-- A source that nobody has used and nobody is told about. -/
def Input.unused : Input := ⟨.fresh, []⟩

namespace Network

def only (n : Network τ π) (p : Compartment) : Network τ π where
  lexer := n.lexer
  inputs := n.inputs.mapIdx fun t i => if p.sources t then i else .unused
  sessions := .replicate p.session none ++ n.sessions[p.session]?.toArray
  notices := n.notices.filter (·.session == p.session)
  agenda := n.agenda.filter p.hasTask

/-- `n'` comes from `n` by putting tasks on the agenda, `r` among them. -/
def Asked (n n' : Network τ π) (r : Request) : Prop :=
  ∃ added, n'.agenda = added ++ n.agenda ∧ .request r ∈ added

variable {n : Network τ π} {p : Compartment} {t y : Nat}

/-! ### Looking things up -/

theorem inputs_only (h : p.sources t = true) : (n.only p).inputs[t]? = n.inputs[t]? := by
  simp [only, h]

theorem source?_only (h : p.sources t = true) : (n.only p).source? t = n.source? t := by
  rw [source?, inputs_only h, source?]

theorem sessions_only (k : Nat) :
    (n.only p).sessions[k]? =
      if k < p.session then some none else if k = p.session then n.sessions[k]? else none := by
  simp only [only, Array.getElem?_append, Array.size_replicate]
  split_ifs with hlt hk
  · simp [hlt]
  · subst hk
    cases n.sessions[p.session]? <;> simp
  · obtain ⟨j, hj⟩ : ∃ j, k - p.session = j + 1 := ⟨k - p.session - 1, by omega⟩
    cases n.sessions[p.session]? <;> simp [hj]

theorem session?_only : (n.only p).session? p.session = n.session? p.session := by
  rw [session?, sessions_only, if_neg (Nat.lt_irrefl _), if_pos rfl, session?]

theorem inputTellings_only (h : p.sources t = true) (text : List Char) :
    (n.only p).inputTellings t text = n.inputTellings t text := by
  rw [inputTellings, inputs_only h, inputTellings]

theorem outputTellings_only (items : List τ) :
    (n.only p).outputTellings p.session items = n.outputTellings p.session items := by
  rw [outputTellings, session?_only, outputTellings]

/-! ### Changes -/

theorem only_schedule (tasks : List (Task τ)) :
    (n.schedule tasks).only p = (n.only p).schedule (tasks.filter p.hasTask) := by
  simp [only, schedule, List.filter_append]

theorem only_schedule_own {tasks : List (Task τ)} (h : ∀ task ∈ tasks, p.hasTask task = true) :
    (n.schedule tasks).only p = (n.only p).schedule tasks := by
  rw [only_schedule, List.filter_eq_self.2 h]

theorem only_schedule_other {tasks : List (Task τ)} (h : ∀ task ∈ tasks, p.hasTask task = false) :
    (n.schedule tasks).only p = n.only p := by
  rw [only_schedule, List.filter_eq_nil_iff.2 (by simpa using h)]
  rfl

theorem only_modifyInput_own (h : p.sources t = true) (f : Input → Input) :
    { n with inputs := n.inputs.modify t f }.only p =
      { n.only p with inputs := (n.only p).inputs.modify t f } := by
  refine congrArg (fun inputs => { n.only p with inputs := inputs })
    (Array.ext_getElem? fun k => ?_)
  simp only [only, Array.getElem?_mapIdx, Array.getElem?_modify]
  by_cases hk : t = k
  · subst hk
    cases n.inputs[t]? <;> simp [h]
  · rw [if_neg hk, if_neg hk]

theorem only_modifyInput_other (h : p.sources t = false) (f : Input → Input) :
    { n with inputs := n.inputs.modify t f }.only p = n.only p := by
  refine congrArg (fun inputs => { n.only p with inputs := inputs })
    (Array.ext_getElem? fun k => ?_)
  simp only [Array.getElem?_mapIdx, Array.getElem?_modify]
  by_cases hk : t = k
  · subst hk
    cases n.inputs[t]? <;> simp [h]
  · rw [if_neg hk]

theorem only_modifySource_own (h : p.sources t = true) (f : Source Char → Source Char) :
    (n.modifySource t f).only p = (n.only p).modifySource t f := only_modifyInput_own h _

theorem only_modifySource_other (h : p.sources t = false) (f : Source Char → Source Char) :
    (n.modifySource t f).only p = n.only p := only_modifyInput_other h _

theorem only_modifyPlace_own (f : Option (Session τ π) → Option (Session τ π)) :
    { n with sessions := n.sessions.modify p.session f }.only p =
      { n.only p with sessions := (n.only p).sessions.modify p.session f } := by
  refine congrArg (fun sessions => { n.only p with sessions := sessions })
    (Array.ext_getElem? fun k => ?_)
  change ({ n with sessions := n.sessions.modify p.session f }.only p).sessions[k]? = _
  simp only [sessions_only, Array.getElem?_modify]
  by_cases hk : p.session = k
  · subst hk
    simp
  · simp [hk, Ne.symm hk]

theorem only_modifyPlace_other (hy : y ≠ p.session)
    (f : Option (Session τ π) → Option (Session τ π)) :
    { n with sessions := n.sessions.modify y f }.only p = n.only p := by
  simp [only, Array.getElem?_modify, hy]

theorem only_modifySession_own (f : Session τ π → Session τ π) :
    (n.modifySession p.session f).only p = (n.only p).modifySession p.session f :=
  only_modifyPlace_own _

theorem only_modifySession_other (hy : y ≠ p.session) (f : Session τ π → Session τ π) :
    (n.modifySession y f).only p = n.only p := only_modifyPlace_other hy _

/-! ### What tasks put on the agenda -/

section

variable {mine : Bool}

theorem hasTask_inputTellings (h : p.sources t = mine) (text : List Char) :
    ∀ task ∈ n.inputTellings t text, p.hasTask task = mine := by
  intro task htask
  obtain ⟨k, rfl⟩ := mem_inputTellings htask
  exact h

theorem hasTask_outputTellings (h : (y == p.session) = mine) (items : List τ) :
    ∀ task ∈ n.outputTellings y items, p.hasTask task = mine := by
  intro task htask
  obtain ⟨k, rfl⟩ := mem_outputTellings htask
  exact h

theorem hasTask_of_owner {task : Task τ} (h : task.owner? = some y) :
    p.hasTask task = (y == p.session) := by
  cases task with
  | request r => cases h
  | tellInput t k text => cases h
  | tellOutput y k items => cases h
  | _ => rw [← Option.some.inj h, Compartment.hasTask]

variable {n' : Network τ π} (hasked : ∀ r, n.Asked n' r → p.hasRequest r = mine)

include hasked

theorem hasTask_requests {requests : List Request}
    (h : n'.agenda = requests.map .request ++ n.agenda) :
    ∀ task ∈ requests.map (.request : Request → Task τ), p.hasTask task = mine := by
  intro task htask
  obtain ⟨r, -, rfl⟩ := List.mem_map.1 htask
  exact hasked r ⟨_, h, htask⟩

/-- The effects of an action, and what its session does afterwards. -/
theorem hasTask_fired {effects : List (Effect τ)} {last : Task τ}
    (hy : (y == p.session) = mine) (hlast : last.owner? = some y)
    (h : n'.agenda = (effects.map (effectTask y) ++ [last]) ++ n.agenda) :
    ∀ task ∈ effects.map (effectTask y) ++ [last], p.hasTask task = mine := by
  intro task htask
  rcases List.mem_append.1 htask with hmem | hmem
  · obtain ⟨effect, -, rfl⟩ := List.mem_map.1 hmem
    cases effect with
    | emit item => exact hy
    | close => exact hy
    | request r => exact hasked (.source r) ⟨_, h, htask⟩
  · rw [List.mem_singleton.1 hmem, hasTask_of_owner hlast, hy]

end

theorem only_schedule_task_own {task : Task τ} (h : task.owner? = some p.session) :
    (n.schedule [task]).only p = (n.only p).schedule [task] := by
  refine only_schedule_own (List.forall_mem_singleton.2 ?_)
  rw [hasTask_of_owner h, beq_self_eq_true]

theorem only_schedule_task_other (hy : y ≠ p.session) {task : Task τ} (h : task.owner? = some y) :
    (n.schedule [task]).only p = n.only p := by
  refine only_schedule_other (List.forall_mem_singleton.2 ?_)
  rw [hasTask_of_owner h, beq_false_of_ne hy]

/-! ### Tasks inside -/

theorem only_wake_own : (n.wake p.session).only p = (n.only p).wake p.session := by
  unfold wake
  rw [session?_only]
  cases n.session? p.session with
  | none => rfl
  | some σ =>
    simp only
    split_ifs
    · rfl
    · rw [only_schedule_task_own (by rfl), only_modifySession_own]

theorem only_grant_own {r : Request} (h : p.hasRequest r = true) :
    (n.grant r).only p = (n.only p).grant r := by
  cases r with
  | source r =>
    cases r with
    | push t text =>
      have ht : p.sources t = true := h
      simp only [grant, source?_only ht]
      cases n.source? t with
      | none => rfl
      | some source =>
        simp only
        split_ifs
        · rfl
        · rw [only_schedule_own (hasTask_inputTellings ht text), only_modifySource_own ht,
            inputTellings_only ht]
    | close t =>
      have ht : p.sources t = true := h
      simp only [grant]
      rw [only_schedule_own (hasTask_inputTellings ht []), only_modifySource_own ht,
        inputTellings_only ht]
  | cancel y =>
    obtain rfl := eq_of_beq h
    simp only [grant]
    rw [only_wake_own, only_modifySession_own]

theorem only_tellInput_own (h : p.sources t = true) {k : Nat} {text : List Char}
    (hreads : ∀ y, n.Notifies t k y → y = p.session)
    (hasked : ∀ r, n.Asked (n.tellInput t k text) r → p.hasRequest r = true) :
    (n.tellInput t k text).only p = (n.only p).tellInput t k text := by
  unfold Notifies at hreads
  unfold tellInput at hasked ⊢
  rw [inputs_only h]
  cases hk : n.inputs[t]?.bind (·.subscribers[k]?) with
  | none => rfl
  | some u =>
    cases u with
    | session y =>
      obtain rfl := hreads y hk
      exact only_wake_own
    | listener r =>
      simp only [hk] at hasked ⊢
      rw [only_schedule_own (hasTask_requests hasked rfl), only_modifyInput_own h]

theorem only_tellOutput_own {k : Nat} {items : List τ}
    (hasked : ∀ r, n.Asked (n.tellOutput p.session k items) r → p.hasRequest r = true) :
    (n.tellOutput p.session k items).only p = (n.only p).tellOutput p.session k items := by
  unfold tellOutput at hasked ⊢
  rw [session?_only]
  cases hσ : n.session? p.session with
  | none => rfl
  | some σ =>
    cases hr : σ.listeners[k]? with
    | none =>
      simp only [hr]
    | some r =>
      simp only [hσ, hr] at hasked ⊢
      rw [only_schedule_own (hasTask_requests hasked rfl), only_modifySession_own]
      simp [only]

theorem only_emit_own (item : τ) :
    (n.emit p.session item).only p = (n.only p).emit p.session item := by
  unfold emit
  rw [session?_only]
  cases n.session? p.session with
  | none => rfl
  | some σ =>
    simp only
    split_ifs
    · rfl
    · rw [only_schedule_own (hasTask_outputTellings (beq_self_eq_true _) [item]),
        only_modifySession_own, outputTellings_only]

theorem only_close_own : (n.close p.session).only p = (n.only p).close p.session := by
  unfold close
  rw [only_schedule_own (hasTask_outputTellings (beq_self_eq_true _) []),
    only_modifySession_own, outputTellings_only]

theorem only_obey_own {input : Nat} (h : p.sources input = true) (move : Move τ π)
    (hasked : ∀ r, n.Asked (n.obey p.session input move) r → p.hasRequest r = true) :
    (n.obey p.session input move).only p = (n.only p).obey p.session input move := by
  have hself : (p.session == p.session) = true := beq_self_eq_true _
  cases move with
  | rest => exact only_schedule_task_own rfl
  | read engine feed =>
    simp only [obey]
    rw [only_schedule_task_own (by rfl), only_modifySession_own, only_modifySource_own h]
  | fire firing engine replays =>
    simp only [obey] at hasked ⊢
    rw [only_schedule_own (hasTask_fired hasked hself rfl rfl), only_modifySession_own]
  | last firing engine =>
    simp only [obey] at hasked ⊢
    rw [only_schedule_own (hasTask_fired hasked hself rfl rfl), only_modifySession_own]
  | fail error feed =>
    simp only [obey]
    rw [only_schedule_task_own (by rfl), only_modifySession_own, only_modifySource_own h]

theorem only_drain_own (hreads : ∀ σ, n.session? p.session = some σ → p.sources σ.input = true)
    (hasked : ∀ r, n.Asked (n.drain p.session) r → p.hasRequest r = true) :
    (n.drain p.session).only p = (n.only p).drain p.session := by
  rw [drain_eq_obey] at hasked ⊢
  rw [drain_eq_obey, session?_only]
  cases hσ : n.session? p.session with
  | none => rfl
  | some σ =>
    simp only [hσ] at hasked ⊢
    have hsource := source?_only (n := n) (hreads σ hσ)
    split_ifs with hstopped hcancelled
    · exact only_schedule_task_own rfl
    · exact only_schedule_task_own rfl
    · rw [hsource]
      rw [if_neg hstopped, if_neg hcancelled] at hasked
      exact only_obey_own (hreads σ hσ) _ hasked

theorem only_proceed_own (replays : Bool) :
    (n.proceed p.session replays).only p = (n.only p).proceed p.session replays := by
  unfold proceed
  rw [only_schedule_task_own (by rfl),
    only_modifySession_own]

theorem only_finish_own (status : SessionStatus) :
    (n.finish p.session status).only p = (n.only p).finish p.session status := by
  unfold finish
  rw [session?_only]
  cases n.session? p.session with
  | none => rfl
  | some σ =>
    simp only
    rw [only_schedule_own, only_modifySession_own]
    -- both ways to go on, with and without closing the output, are tasks of the session
    split_ifs <;> simp [Compartment.hasTask]

/-! ### Tasks outside -/

theorem only_wake_other (hy : y ≠ p.session) : (n.wake y).only p = n.only p := by
  unfold wake
  cases n.session? y with
  | none => rfl
  | some σ =>
    simp only
    split_ifs
    · rfl
    · rw [only_schedule_task_other hy (by rfl),
        only_modifySession_other hy]

theorem only_grant_other {r : Request} (h : p.hasRequest r = false) :
    (n.grant r).only p = n.only p := by
  cases r with
  | source r =>
    cases r with
    | push t text =>
      have ht : p.sources t = false := h
      simp only [grant]
      cases n.source? t with
      | none => rfl
      | some source =>
        simp only
        split_ifs
        · rfl
        · rw [only_schedule_other (hasTask_inputTellings ht text), only_modifySource_other ht]
    | close t =>
      have ht : p.sources t = false := h
      simp only [grant]
      rw [only_schedule_other (hasTask_inputTellings ht []), only_modifySource_other ht]
  | cancel y =>
    have hy : y ≠ p.session := ne_of_beq_false h
    simp only [grant]
    rw [only_wake_other hy, only_modifySession_other hy]

theorem only_tellInput_other (h : p.sources t = false) {k : Nat} {text : List Char}
    (hreads : ∀ y, n.Notifies t k y → y ≠ p.session)
    (hasked : ∀ r, n.Asked (n.tellInput t k text) r → p.hasRequest r = false) :
    (n.tellInput t k text).only p = n.only p := by
  unfold Notifies at hreads
  unfold tellInput at hasked ⊢
  cases hk : n.inputs[t]?.bind (·.subscribers[k]?) with
  | none => rfl
  | some u =>
    cases u with
    | session y => exact only_wake_other (hreads y hk)
    | listener r =>
      simp only [hk] at hasked ⊢
      rw [only_schedule_other (hasTask_requests hasked rfl), only_modifyInput_other h]

theorem only_tellOutput_other (hy : y ≠ p.session) {k : Nat} {items : List τ}
    (hasked : ∀ r, n.Asked (n.tellOutput y k items) r → p.hasRequest r = false) :
    (n.tellOutput y k items).only p = n.only p := by
  unfold tellOutput at hasked ⊢
  cases hσ : n.session? y with
  | none => rfl
  | some σ =>
    simp only [hσ] at hasked ⊢
    cases hr : σ.listeners[k]? with
    | none => rfl
    | some r =>
      simp only [hr] at hasked ⊢
      rw [only_schedule_other (hasTask_requests hasked rfl), only_modifySession_other hy]
      simp [only, hy]

theorem only_emit_other (hy : y ≠ p.session) (item : τ) :
    (n.emit y item).only p = n.only p := by
  unfold emit
  cases n.session? y with
  | none => rfl
  | some σ =>
    simp only
    split_ifs
    · rfl
    · rw [only_schedule_other (hasTask_outputTellings (beq_false_of_ne hy) [item]),
        only_modifySession_other hy]

theorem only_close_other (hy : y ≠ p.session) : (n.close y).only p = n.only p := by
  unfold close
  rw [only_schedule_other (hasTask_outputTellings (beq_false_of_ne hy) []),
    only_modifySession_other hy]

theorem only_obey_other (hy : y ≠ p.session) {input : Nat} (h : p.sources input = false)
    (move : Move τ π) (hasked : ∀ r, n.Asked (n.obey y input move) r → p.hasRequest r = false) :
    (n.obey y input move).only p = n.only p := by
  have hother : (y == p.session) = false := beq_false_of_ne hy
  cases move with
  | rest => exact only_schedule_task_other hy rfl
  | read engine feed =>
    simp only [obey]
    rw [only_schedule_task_other hy (by rfl), only_modifySession_other hy,
      only_modifySource_other h]
  | fire firing engine replays =>
    simp only [obey] at hasked ⊢
    rw [only_schedule_other (hasTask_fired hasked hother rfl rfl), only_modifySession_other hy]
  | last firing engine =>
    simp only [obey] at hasked ⊢
    rw [only_schedule_other (hasTask_fired hasked hother rfl rfl), only_modifySession_other hy]
  | fail error feed =>
    simp only [obey]
    rw [only_schedule_task_other hy (by rfl), only_modifySession_other hy,
      only_modifySource_other h]

theorem only_drain_other (hy : y ≠ p.session)
    (hreads : ∀ σ, n.session? y = some σ → p.sources σ.input = false)
    (hasked : ∀ r, n.Asked (n.drain y) r → p.hasRequest r = false) :
    (n.drain y).only p = n.only p := by
  rw [drain_eq_obey] at hasked ⊢
  cases hσ : n.session? y with
  | none => rfl
  | some σ =>
    simp only [hσ] at hasked ⊢
    split_ifs with hstopped hcancelled
    · exact only_schedule_task_other hy rfl
    · exact only_schedule_task_other hy rfl
    · rw [if_neg hstopped, if_neg hcancelled] at hasked
      exact only_obey_other hy (hreads σ hσ) _ hasked

theorem only_proceed_other (hy : y ≠ p.session) (replays : Bool) :
    (n.proceed y replays).only p = n.only p := by
  unfold proceed
  rw [only_schedule_task_other hy (by rfl),
    only_modifySession_other hy]

theorem only_finish_other (hy : y ≠ p.session) (status : SessionStatus) :
    (n.finish y status).only p = n.only p := by
  unfold finish
  cases n.session? y with
  | none => rfl
  | some σ =>
    simp only
    rw [only_schedule_other, only_modifySession_other hy]
    split_ifs <;> simp [Compartment.hasTask, hy]

/-! ### Any task -/

theorem only_perform {task : Task τ} (hwalled : p.Walled n)
    (hasked : ∀ r, n.Asked (n.perform task) r → p.hasRequest r = p.hasTask task) :
    (n.perform task).only p = if p.hasTask task then (n.only p).perform task else n.only p := by
  cases hmine : p.hasTask task with
  | true =>
    rw [hmine] at hasked
    cases task with
    | request r => exact only_grant_own hmine
    | tellInput t k text =>
      refine only_tellInput_own hmine (fun y hy => eq_of_beq ?_) hasked
      exact (hwalled.subscribers t k y hy).symm.trans hmine
    | tellOutput y k items =>
      obtain rfl := eq_of_beq hmine
      exact only_tellOutput_own hasked
    | emit y item =>
      obtain rfl := eq_of_beq hmine
      exact only_emit_own item
    | close y =>
      obtain rfl := eq_of_beq hmine
      exact only_close_own
    | drain y =>
      obtain rfl := eq_of_beq hmine
      exact only_drain_own (fun σ hσ => (hwalled.readers _ σ hσ).trans hmine) hasked
    | proceed y replays =>
      obtain rfl := eq_of_beq hmine
      exact only_proceed_own replays
    | finish y status =>
      obtain rfl := eq_of_beq hmine
      exact only_finish_own status
    | release y =>
      obtain rfl := eq_of_beq hmine
      exact only_modifySession_own _
  | false =>
    rw [hmine] at hasked
    cases task with
    | request r => exact only_grant_other hmine
    | tellInput t k text =>
      refine only_tellInput_other hmine (fun y hy => ne_of_beq_false ?_) hasked
      exact (hwalled.subscribers t k y hy).symm.trans hmine
    | tellOutput y k items => exact only_tellOutput_other (ne_of_beq_false hmine) hasked
    | emit y item => exact only_emit_other (ne_of_beq_false hmine) item
    | close y => exact only_close_other (ne_of_beq_false hmine)
    | drain y =>
      have hreads := fun σ hσ => (hwalled.readers y σ hσ).trans hmine
      exact only_drain_other (ne_of_beq_false hmine) hreads hasked
    | proceed y replays => exact only_proceed_other (ne_of_beq_false hmine) replays
    | finish y status => exact only_finish_other (ne_of_beq_false hmine) status
    | release y => exact only_modifySession_other (ne_of_beq_false hmine) _

end Network

end DerivativeLexer
