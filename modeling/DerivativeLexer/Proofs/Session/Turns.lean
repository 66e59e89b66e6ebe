import DerivativeLexer.Proofs.Session.Events

/-! # What a task does to a session

Most of what happens in a network leaves a given session as it is, or changes only its listeners.
The rest is listed here once: what the first task on the agenda can do to the session, and which
tasks it then puts on the agenda in front of the others. Whatever holds of a session throughout is
shown by going through this list. -/

namespace DerivativeLexer

variable {τ π : Type}

/-- The task is a part of the work of the session or tells a listener on its output something. -/
def Task.About (x : Nat) (task : Task τ) : Prop :=
  task.owner? = some x ∨ ∃ k items, task = .tellOutput x k items

namespace Network

inductive Turn (n : Network τ π) (x : Nat) (σ : Session τ π) :
    Task τ → Session τ π → List (Task τ) → Prop
  /-- The task is not the session's own. It may tell one of its listeners something. -/
  | elsewhere {task : Task τ} {listeners : List (Reaction τ)} {added : List (Task τ)}
      (howner : task.owner? ≠ some x) (hcancel : task ≠ .request (.cancel x))
      (hawake : ∀ t k text, task = .tellInput t k text → n.Notifies t k x →
        σ.busy = true ∨ σ.status.isLive = false)
      (hlength : listeners.length = σ.listeners.length)
      (hadded : ∀ other ∈ added, ¬other.About x) :
      Turn n x σ task { σ with listeners := listeners } added
  | flagged (hbusy : σ.busy = true ∨ σ.status.isLive = false) :
      Turn n x σ (.request (.cancel x)) { σ with cancelled := true } []
  | cancelled (hbusy : σ.busy = false) (hlive : σ.status.isLive = true) :
      Turn n x σ (.request (.cancel x)) { σ with cancelled := true, busy := true } [.drain x]
  | woken {t k : Nat} {text : List Char} (hnotifies : n.Notifies t k x) (hbusy : σ.busy = false)
      (hlive : σ.status.isLive = true) :
      Turn n x σ (.tellInput t k text) { σ with busy := true } [.drain x]
  | emits {item : τ} (hopen : σ.output.closed = false) :
      Turn n x σ (.emit x item) { σ with output := σ.output.push [item] }
        (n.outputTellings x [item])
  | mute {item : τ} (hclosed : σ.output.closed = true) : Turn n x σ (.emit x item) σ []
  | closes : Turn n x σ (.close x) { σ with output := σ.output.close } (n.outputTellings x [])
  | halts (hstopped : σ.status.isLive = false) : Turn n x σ (.drain x) σ [.release x]
  | heeds (hlive : σ.status.isLive = true) (hcancelled : σ.cancelled = true) :
      Turn n x σ (.drain x) σ [.finish x .cancelled]
  | rests (hlive : σ.status.isLive = true) (hcancelled : σ.cancelled = false)
      (hmove : σ.engine.move n.lexer.rules n.lexer.config
        ⟨(n.source? σ.input).getD .fresh, σ.reader⟩ = .rest) :
      Turn n x σ (.drain x) σ [.release x]
  | reads {engine : Engine π} {feed : Feed Char} (hlive : σ.status.isLive = true)
      (hcancelled : σ.cancelled = false)
      (hmove : σ.engine.move n.lexer.rules n.lexer.config
        ⟨(n.source? σ.input).getD .fresh, σ.reader⟩ = .read engine feed) :
      Turn n x σ (.drain x)
        { σ with
          engine := engine
          reader := feed.reader
          status := σ.status.afterRead engine.replaying } [.drain x]
  | fires {firing : Firing τ π} {engine : Engine π} {replays : Bool}
      (hlive : σ.status.isLive = true) (hcancelled : σ.cancelled = false)
      (hmove : σ.engine.move n.lexer.rules n.lexer.config
        ⟨(n.source? σ.input).getD .fresh, σ.reader⟩ = .fire firing engine replays) :
      Turn n x σ (.drain x) { σ with engine := engine }
        (firing.effects.map (effectTask x) ++ [.proceed x replays])
  | ends {firing : Firing τ π} {engine : Engine π} (hlive : σ.status.isLive = true)
      (hcancelled : σ.cancelled = false)
      (hmove : σ.engine.move n.lexer.rules n.lexer.config
        ⟨(n.source? σ.input).getD .fresh, σ.reader⟩ = .last firing engine) :
      Turn n x σ (.drain x) { σ with engine := engine }
        (firing.effects.map (effectTask x) ++ [.finish x .terminated])
  | fails {error : LexError} {feed : Feed Char} (hlive : σ.status.isLive = true)
      (hcancelled : σ.cancelled = false)
      (hmove : σ.engine.move n.lexer.rules n.lexer.config
        ⟨(n.source? σ.input).getD .fresh, σ.reader⟩ = .fail error feed) :
      Turn n x σ (.drain x) { σ with reader := feed.reader } [.finish x (.failed error)]
  | proceeds {replays : Bool} :
      Turn n x σ (.proceed x replays) { σ with status := σ.status.afterFire replays } [.drain x]
  | finishes {status : SessionStatus} :
      Turn n x σ (.finish x status)
        { σ with status := status, engine := { σ.engine with bookmark := none } }
        (if σ.output.closed then [.release x] else [.close x, .release x])
  | releases : Turn n x σ (.release x) { σ with busy := false } []

section Turns

variable {n n' n'' : Network τ π} {x y : Nat} {σ σ' : Session τ π} {task : Task τ}
  {rest added : List (Task τ)}

/-! ### Tasks elsewhere -/

/-- `n'` comes from `n` by changes elsewhere than in the session `x`. -/
structure Aside (x : Nat) (n n' : Network τ π) : Prop where
  session_eq : n'.session? x = n.session? x
  agenda : ∃ added, n'.agenda = added ++ n.agenda ∧ ∀ task ∈ added, ¬task.About x

namespace Aside

theorem of_eq (hsession : n'.session? x = n.session? x) (hagenda : n'.agenda = n.agenda) :
    Aside x n n' :=
  ⟨hsession, [], hagenda, fun _ h => nomatch h⟩

theorem refl (n : Network τ π) : Aside x n n := .of_eq rfl rfl

theorem schedule {tasks : List (Task τ)} (hsession : n'.session? x = n.session? x)
    (hagenda : n'.agenda = n.agenda) (h : ∀ task ∈ tasks, ¬task.About x) :
    Aside x n (n'.schedule tasks) :=
  ⟨hsession, tasks, congrArg (tasks ++ ·) hagenda, h⟩

end Aside

theorem not_about_of_owner (hy : y ≠ x) (h : task.owner? = some y) : ¬task.About x := by
  rintro (hx | ⟨k, items, rfl⟩)
  · exact hy (Option.some.inj (h.symm.trans hx))
  · cases h

theorem not_about_request (q : Request) : ¬(Task.request q : Task τ).About x := by
  rintro (h | ⟨k, items, h⟩)
  · cases h
  · cases h

theorem not_about_requests (requests : List Request) :
    ∀ task ∈ requests.map (.request : Request → Task τ), ¬task.About x := by
  intro task htask
  obtain ⟨q, -, rfl⟩ := List.mem_map.1 htask
  exact not_about_request q

theorem not_about_inputTellings (t : Nat) (text : List Char) :
    ∀ task ∈ n.inputTellings t text, ¬task.About x := by
  intro task htask
  obtain ⟨k, rfl⟩ := mem_inputTellings htask
  rintro (h | ⟨k, items, h⟩)
  · cases h
  · cases h

theorem not_about_outputTellings (hy : y ≠ x) (items : List τ) :
    ∀ task ∈ n.outputTellings y items, ¬task.About x := by
  intro task htask
  obtain ⟨k, rfl⟩ := mem_outputTellings htask
  rintro (h | ⟨k, items, h⟩)
  · cases h
  · cases h
    exact hy rfl

theorem not_about_effects (hy : y ≠ x) (effects : List (Effect τ)) {last : Task τ}
    (hlast : last.owner? = some y) :
    ∀ task ∈ effects.map (effectTask y) ++ [last], ¬task.About x := by
  intro task htask
  rcases List.mem_append.1 htask with htask | htask
  · obtain ⟨effect, -, rfl⟩ := List.mem_map.1 htask
    cases effect with
    | emit item => exact not_about_of_owner hy rfl
    | close => exact not_about_of_owner hy rfl
    | request r => exact not_about_request _
  · rw [List.mem_singleton.1 htask]
    exact not_about_of_owner hy hlast

theorem not_about_single (hy : y ≠ x) (h : task.owner? = some y) :
    ∀ other ∈ [task], ¬other.About x := by
  intro other hother
  rw [List.mem_singleton.1 hother]
  exact not_about_of_owner hy h

theorem aside_wake (hy : y ≠ x) : Aside x n (n.wake y) := by
  unfold wake
  cases n.session? y with
  | none => exact .refl n
  | some ρ =>
    simp only
    split_ifs
    · exact .refl n
    · exact .schedule (session?_modifySession_of_ne hy _) rfl (not_about_single hy rfl)

theorem aside_grant {r : Request} (hr : r ≠ .cancel x) : Aside x n (n.grant r) := by
  cases r with
  | source r =>
    cases r with
    | push t text =>
      simp only [grant]
      cases n.source? t with
      | none => exact .refl n
      | some source =>
        simp only
        split_ifs
        · exact .refl n
        · exact .schedule rfl rfl (not_about_inputTellings t text)
    | close t => exact .schedule rfl rfl (not_about_inputTellings t [])
  | cancel y =>
    have hy : y ≠ x := by
      rintro rfl
      exact hr rfl
    obtain ⟨hsession, hagenda⟩ :=
      aside_wake (n := n.modifySession y fun ρ => { ρ with cancelled := true }) hy
    exact ⟨hsession.trans (session?_modifySession_of_ne hy _), hagenda⟩

theorem aside_tellInput {t k : Nat} {text : List Char} (hk : ¬n.Notifies t k x) :
    Aside x n (n.tellInput t k text) := by
  unfold tellInput
  unfold Notifies at hk
  cases hu : n.inputs[t]?.bind (·.subscribers[k]?) with
  | none => exact .refl n
  | some u =>
    cases u with
    | session y =>
      refine aside_wake fun hy => hk ?_
      rw [hu, hy]
    | listener r => exact .schedule rfl rfl (not_about_requests _)

theorem aside_tellOutput (hy : y ≠ x) (k : Nat) (items : List τ) :
    Aside x n (n.tellOutput y k items) := by
  unfold tellOutput
  cases n.session? y with
  | none => exact .refl n
  | some ρ =>
    simp only
    cases ρ.listeners[k]? with
    | none => exact .refl n
    | some r =>
      exact .schedule (session?_modifySession_of_ne hy _) rfl (not_about_requests _)

theorem aside_emit (hy : y ≠ x) (item : τ) : Aside x n (n.emit y item) := by
  unfold emit
  cases n.session? y with
  | none => exact .refl n
  | some ρ =>
    simp only
    split_ifs
    · exact .refl n
    · exact .schedule (session?_modifySession_of_ne hy _) rfl (not_about_outputTellings hy [item])

theorem aside_drain (hy : y ≠ x) : Aside x n (n.drain y) := by
  unfold drain
  cases n.session? y with
  | none => exact .refl n
  | some ρ =>
    simp only
    split_ifs
    · exact .schedule rfl rfl (not_about_single hy rfl)
    · exact .schedule rfl rfl (not_about_single hy rfl)
    · cases ρ.engine.move n.lexer.rules n.lexer.config
          ⟨(n.source? ρ.input).getD .fresh, ρ.reader⟩ with
      | rest => exact .schedule rfl rfl (not_about_single hy rfl)
      | read engine feed =>
        exact .schedule (session?_modifySession_of_ne hy _) rfl (not_about_single hy rfl)
      | fire firing engine replays =>
        exact .schedule (session?_modifySession_of_ne hy _) rfl (not_about_effects hy _ rfl)
      | last firing engine =>
        exact .schedule (session?_modifySession_of_ne hy _) rfl (not_about_effects hy _ rfl)
      | fail error feed =>
        exact .schedule (session?_modifySession_of_ne hy _) rfl (not_about_single hy rfl)

theorem aside_finish (hy : y ≠ x) (status : SessionStatus) : Aside x n (n.finish y status) := by
  unfold finish
  cases n.session? y with
  | none => exact .refl n
  | some ρ =>
    refine .schedule (session?_modifySession_of_ne hy _) rfl fun task htask => ?_
    apply not_about_of_owner hy
    split_ifs at htask
    · rw [List.mem_singleton.1 htask]
      rfl
    · rcases List.mem_pair.1 htask with rfl | rfl
      · rfl
      · rfl

theorem aside_perform (htask : ¬task.About x) (hcancel : task ≠ .request (.cancel x))
    (htells : ∀ t k text, task = .tellInput t k text → ¬n.Notifies t k x) :
    Aside x n (n.perform task) := by
  have howner : ∀ y, task.owner? = some y → y ≠ x := by
    rintro y hy rfl
    exact htask (.inl hy)
  cases task with
  | request r =>
    refine aside_grant ?_
    rintro rfl
    exact hcancel rfl
  | tellInput t k text => exact aside_tellInput (htells t k text rfl)
  | tellOutput y k items =>
    refine aside_tellOutput ?_ k items
    rintro rfl
    exact htask (.inr ⟨k, items, rfl⟩)
  | emit y item => exact aside_emit (howner y rfl) item
  | close y =>
    exact .schedule (session?_modifySession_of_ne (howner y rfl) _) rfl
      (not_about_outputTellings (howner y rfl) [])
  | drain y => exact aside_drain (howner y rfl)
  | proceed y replays =>
    exact .schedule (session?_modifySession_of_ne (howner y rfl) _) rfl
      (not_about_single (howner y rfl) rfl)
  | finish y status => exact aside_finish (howner y rfl) status
  | release y => exact .of_eq (session?_modifySession_of_ne (howner y rfl) _) rfl

/-! ### The list is complete -/

/-- The task does to the session what `Turn` says. -/
def Turns (n n' : Network τ π) (x : Nat) (σ : Session τ π) (task : Task τ) : Prop :=
  ∃ σ' added, Turn n x σ task σ' added ∧ n'.session? x = some σ' ∧ n'.agenda = added ++ n.agenda

theorem session?_modify (hσ : n.session? x = some σ) (f : Session τ π → Session τ π) :
    (n.modifySession x f).session? x = some (f σ) := by
  rw [session?_modifySession_self, hσ]
  rfl

theorem turns_grant_cancel (hσ : n.session? x = some σ) :
    Turns n (n.grant (.cancel x)) x σ (.request (.cancel x)) := by
  have hσ' := session?_modify hσ fun σ => { σ with cancelled := true }
  simp only [grant, wake, hσ']
  split_ifs with hidle
  · rw [Bool.or_eq_true, Bool.not_eq_true'] at hidle
    exact ⟨_, _, .flagged hidle, hσ', rfl⟩
  · rw [Bool.or_eq_true, not_or, Bool.not_eq_true, Bool.not_eq_true', Bool.not_eq_false] at hidle
    exact ⟨_, _, .cancelled hidle.1 hidle.2,
      session?_modify hσ' fun σ => { σ with busy := true }, rfl⟩

theorem turns_tellInput (hσ : n.session? x = some σ) {t k : Nat} (hk : n.Notifies t k x)
    (text : List Char) : Turns n (n.tellInput t k text) x σ (.tellInput t k text) := by
  unfold Notifies at hk
  simp only [tellInput, hk, wake, hσ]
  split_ifs with hidle
  · rw [Bool.or_eq_true, Bool.not_eq_true'] at hidle
    refine ⟨σ, [], .elsewhere ?_ ?_ ?_ rfl ?_, hσ, rfl⟩
    · intro howner
      cases howner
    · intro hcancel
      cases hcancel
    · exact fun _ _ _ _ _ => hidle
    · intro other hother
      cases hother
  · rw [Bool.or_eq_true, not_or, Bool.not_eq_true, Bool.not_eq_true', Bool.not_eq_false] at hidle
    exact ⟨_, _, .woken hk hidle.1 hidle.2, session?_modify hσ fun σ => { σ with busy := true },
      rfl⟩

theorem turns_tellOutput (hσ : n.session? x = some σ) (k : Nat) (items : List τ) :
    Turns n (n.tellOutput x k items) x σ (.tellOutput x k items) := by
  have hturn : ∀ (listeners : List (Reaction τ)) (requests : List Request),
      listeners.length = σ.listeners.length →
      Turn n x σ (.tellOutput x k items) { σ with listeners := listeners }
        (requests.map .request) := fun listeners requests hlength =>
    .elsewhere (fun h => nomatch h) (fun h => nomatch h) (fun _ _ _ h => nomatch h) hlength
      (not_about_requests requests)
  simp only [tellOutput, hσ]
  cases σ.listeners[k]? with
  | none => exact ⟨σ, [], hturn σ.listeners [] rfl, hσ, rfl⟩
  | some r =>
    have hσ' : { n with notices := n.notices.push ⟨x, items, σ.status⟩ }.session? x = some σ := hσ
    refine ⟨_, _, hturn (σ.listeners.set k (r.hear items).2) (r.hear items).1 ?_,
      session?_modify hσ' fun σ => { σ with listeners := σ.listeners.set k (r.hear items).2 }, rfl⟩
    exact List.length_set

theorem turns_emit (hσ : n.session? x = some σ) (item : τ) :
    Turns n (n.emit x item) x σ (.emit x item) := by
  simp only [emit, hσ]
  split_ifs with hclosed
  · exact ⟨_, _, .mute hclosed, hσ, rfl⟩
  · exact ⟨_, _, .emits (Bool.not_eq_true _ ▸ hclosed), session?_modify hσ _, rfl⟩

theorem turns_drain (hσ : n.session? x = some σ) : Turns n (n.drain x) x σ (.drain x) := by
  simp only [drain, hσ]
  split_ifs with hstopped hcancelled
  · exact ⟨_, _, .halts (Bool.not_eq_true' _ ▸ hstopped), hσ, rfl⟩
  · rw [Bool.not_eq_true', Bool.not_eq_false] at hstopped
    exact ⟨_, _, .heeds hstopped hcancelled, hσ, rfl⟩
  · rw [Bool.not_eq_true', Bool.not_eq_false] at hstopped
    rw [Bool.not_eq_true] at hcancelled
    cases hmove : σ.engine.move n.lexer.rules n.lexer.config
        ⟨(n.source? σ.input).getD .fresh, σ.reader⟩ with
    | rest => exact ⟨_, _, .rests hstopped hcancelled hmove, hσ, rfl⟩
    | read engine feed =>
      have hσ' : (n.modifySource σ.input fun _ => feed.source).session? x = some σ := hσ
      exact ⟨_, _, .reads hstopped hcancelled hmove, session?_modify hσ' _, rfl⟩
    | fire firing engine replays =>
      exact ⟨_, _, .fires hstopped hcancelled hmove, session?_modify hσ _, rfl⟩
    | last firing engine =>
      exact ⟨_, _, .ends hstopped hcancelled hmove, session?_modify hσ _, rfl⟩
    | fail error feed =>
      have hσ' : (n.modifySource σ.input fun _ => feed.source).session? x = some σ := hσ
      exact ⟨_, _, .fails hstopped hcancelled hmove, session?_modify hσ' _, rfl⟩

theorem turns_finish (hσ : n.session? x = some σ) (status : SessionStatus) :
    Turns n (n.finish x status) x σ (.finish x status) := by
  simp only [finish, hσ]
  exact ⟨_, _, .finishes, session?_modify hσ _, rfl⟩

theorem turns_perform (hσ : n.session? x = some σ) (task : Task τ) :
    Turns n (n.perform task) x σ task := by
  by_cases hcancel : task = .request (.cancel x)
  · subst hcancel
    exact turns_grant_cancel hσ
  by_cases htells : ∃ t k text, task = .tellInput t k text ∧ n.Notifies t k x
  · obtain ⟨t, k, text, rfl, hk⟩ := htells
    exact turns_tellInput hσ hk text
  by_cases habout : task.About x
  · rcases habout with howner | ⟨k, items, rfl⟩
    · cases task with
      | request r => cases howner
      | tellInput t k text => cases howner
      | tellOutput y k items => cases howner
      | emit y item =>
        obtain rfl := Option.some.inj howner
        exact turns_emit hσ item
      | close y =>
        obtain rfl := Option.some.inj howner
        exact ⟨_, _, .closes, session?_modify hσ _, rfl⟩
      | drain y =>
        obtain rfl := Option.some.inj howner
        exact turns_drain hσ
      | proceed y replays =>
        obtain rfl := Option.some.inj howner
        exact ⟨_, _, .proceeds, session?_modify hσ _, rfl⟩
      | finish y status =>
        obtain rfl := Option.some.inj howner
        exact turns_finish hσ status
      | release y =>
        obtain rfl := Option.some.inj howner
        exact ⟨_, _, .releases, session?_modify hσ _, rfl⟩
    · exact turns_tellOutput hσ k items
  · have htells' : ∀ t k text, task = .tellInput t k text → ¬n.Notifies t k x :=
      fun t k text htask hk => htells ⟨t, k, text, htask, hk⟩
    obtain ⟨hsession, added, hagenda, hadded⟩ := aside_perform habout hcancel htells'
    refine ⟨σ, added, .elsewhere (fun h => habout (.inl h)) hcancel ?_ rfl hadded,
      hsession.trans hσ, hagenda⟩
    exact fun t k text htask hk => (htells' t k text htask hk).elim

/-- Whatever a listener asks for when it is told something, the session has the same turn. -/
theorem Turn.asks (h : Turn n x σ task σ' added) (hlistens : n.Listens task)
    (asked : List Request) : Turn n x σ task σ' (asked.map .request ++ added) := by
  cases h with
  | elsewhere howner hcancel hawake hlength hadded =>
    refine .elsewhere howner hcancel hawake hlength fun other hother => ?_
    rcases List.mem_append.1 hother with hother | hother
    · exact not_about_requests asked other hother
    · exact hadded other hother
  | woken hnotifies hbusy hlive =>
    obtain ⟨r, hr⟩ := hlistens
    rw [Notifies, hr] at hnotifies
    cases hnotifies
  | _ => exact hlistens.elim

/-! ### Events -/

/-- A task that is done is a turn of every session. -/
theorem Happens.turn {asked : List Request} (h : n.Happens (.task task asked) n')
    (hσ : n.session? x = some σ) :
    ∃ rest σ' added, n.agenda = task :: rest ∧
      Turn { n with agenda := rest } x σ task σ' added ∧ n'.session? x = some σ' ∧
      n'.agenda = added ++ rest := by
  cases h with
  | @task _ rest _ hagenda hasked =>
    have hσ' : { n with agenda := rest }.session? x = some σ := hσ
    obtain ⟨σ', added, hturn, hafter, hadded⟩ := turns_perform hσ' task
    have hstep : n.step = { n with agenda := rest }.perform task := by
      rw [step, hagenda]
    rw [← hstep] at hafter hadded
    rcases hasked with rfl | hlistens
    · exact ⟨rest, σ', added, hagenda, hturn, hafter, hadded⟩
    · refine ⟨rest, σ', _, hagenda, hturn.asks hlistens asked, hafter, ?_⟩
      rw [schedule, hadded, List.append_assoc]

theorem lt_size_of_session? (hσ : n.session? x = some σ) : x < n.sessions.size := by
  rw [session?, Option.join_eq_some_iff] at hσ
  exact (Array.getElem?_eq_some_iff.1 hσ).1

theorem session?_launch_of_lt (hx : x < n.sessions.size) (t offset : Nat) (reader : Reader Char) :
    (n.launch t offset reader).session? x = n.session? x := by
  rw [session?, Network.launch, schedule, Array.getElem?_push, if_neg (Nat.ne_of_lt hx), session?]

/-- What an event that does not drop the session does to it. If it is no task, the session at most
gets new listeners, and something of somebody else is put on the agenda if nothing is on it. -/
inductive Passes (n : Network τ π) (x : Nat) (σ : Session τ π) (e : Event τ)
    (n' : Network τ π) : Session τ π → Prop
  | turn {task : Task τ} {asked : List Request} {rest added : List (Task τ)} {σ' : Session τ π}
      (hevent : e = .task task asked) (hagenda : n.agenda = task :: rest)
      (hturn : Turn { n with agenda := rest } x σ task σ' added)
      (hadded : n'.agenda = added ++ rest) : Passes n x σ e n' σ'
  | aside {listeners : List (Reaction τ)} {added : List (Task τ)}
      (hevent : ∀ task asked, e ≠ .task task asked) (hadded : n'.agenda = added ++ n.agenda)
      (hforeign : ∀ task ∈ added, ¬task.About x) (hidle : added = [] ∨ n.agenda = []) :
      Passes n x σ e n' { σ with listeners := σ.listeners ++ listeners }

theorem Happens.aside {e : Event τ} (h : n.Happens e n') (hσ : n.session? x = some σ)
    (hevent : ∀ task asked, e ≠ .task task asked) (hdrop : e ≠ .drop x) :
    ∃ σ', n'.session? x = some σ' ∧ Passes n x σ e n' σ' := by
  have hpasses : ∀ listeners added,
      n'.session? x = some { σ with listeners := σ.listeners ++ listeners } →
      n'.agenda = added ++ n.agenda → (∀ task ∈ added, ¬task.About x) →
      (added = [] ∨ n.agenda = []) → ∃ σ', n'.session? x = some σ' ∧ Passes n x σ e n' σ' :=
    fun _ _ hσ' hadded hforeign hidle => ⟨_, hσ', .aside hevent hadded hforeign hidle⟩
  have hsame : n'.session? x = n.session? x →
      n'.session? x = some { σ with listeners := σ.listeners ++ [] } := by
    intro hsession
    rw [hsession, hσ, List.append_nil]
  have hnone : ∀ task ∈ ([] : List (Task τ)), ¬task.About x := fun _ h => nomatch h
  cases h with
  | task hagenda hasked => exact (hevent _ _ rfl).elim
  | call r hagenda =>
    exact hpasses [] [.request r] (hsame rfl) rfl (not_about_requests [r]) (.inr hagenda)
  | launch t hagenda hreached =>
    have hlt := lt_size_of_session? hσ
    exact hpasses [] [.drain n.sessions.size] (hsame (session?_launch_of_lt hlt t _ _)) rfl
      (not_about_single (Nat.ne_of_gt hlt) rfl) (.inr hagenda)
  | drop y hagenda =>
    have hne : y ≠ x := by
      rintro rfl
      exact hdrop rfl
    refine hpasses [] [] (hsame ?_) rfl hnone (.inl rfl)
    rw [session?_drop, if_neg hne]
  | listen y r =>
    by_cases hy : y = x
    · subst hy
      exact hpasses [r] [] (session?_modify hσ _) rfl hnone (.inl rfl)
    · exact hpasses [] [] (hsame (session?_modifySession_of_ne hy _)) rfl hnone (.inl rfl)
  | _ => exact hpasses [] [] (hsame rfl) rfl hnone (.inl rfl)

theorem Happens.passes {e : Event τ} (h : n.Happens e n') (hσ : n.session? x = some σ)
    (hdrop : e ≠ .drop x) : ∃ σ', n'.session? x = some σ' ∧ Passes n x σ e n' σ' := by
  by_cases hevent : ∃ task asked, e = .task task asked
  · obtain ⟨task, asked, rfl⟩ := hevent
    obtain ⟨rest, σ', added, hagenda, hturn, hσ', hadded⟩ := h.turn hσ
    exact ⟨σ', hσ', .turn rfl hagenda hturn hadded⟩
  · exact h.aside hσ (fun task asked he => hevent ⟨task, asked, he⟩) hdrop

/-! ### Sessions followed through a run -/

/-- A session was there before or has just been launched. -/
theorem Happens.session_before {e : Event τ} (h : n.Happens e n')
    (hσ' : n'.session? x = some σ') :
    (∃ σ, n.session? x = some σ ∧ e ≠ .drop x) ∨
      ∃ t offset reader, x = n.sessions.size ∧ n.agenda = [] ∧
        (reader.start ≤ offset ∧ offset ≤ reader.reach) ∧ n' = n.launch t offset reader := by
  cases h with
  | task hagenda hasked =>
    obtain ⟨σ, hσ, -⟩ := session?_wiring wiring_step hσ'
    exact .inl ⟨σ, hσ, fun h => nomatch h⟩
  | @launch t offset reader hagenda hreached =>
    rcases session?_launch t offset reader hσ' with hσ | ⟨hx, -, -⟩
    · exact .inl ⟨σ', hσ, fun h => nomatch h⟩
    · exact .inr ⟨t, offset, reader, hx, hagenda, hreached, rfl⟩
  | drop y hagenda =>
    refine .inl ⟨σ', session?_of_drop hσ', ?_⟩
    rintro ⟨⟩
    rw [session?_drop, if_pos rfl] at hσ'
    cases hσ'
  | listen y r =>
    obtain ⟨σ, hσ, -⟩ := session?_listen hσ'
    exact .inl ⟨σ, hσ, fun h => nomatch h⟩
  | call r hagenda => exact .inl ⟨σ', hσ', fun h => nomatch h⟩
  | addSource source => exact .inl ⟨σ', hσ', fun h => nomatch h⟩
  | disturb t source => exact .inl ⟨σ', hσ', fun h => nomatch h⟩
  | subscribe t u => exact .inl ⟨σ', hσ', fun h => nomatch h⟩
  | takeNotices => exact .inl ⟨σ', hσ', fun h => nomatch h⟩

theorem Happens.size_le {e : Event τ} (h : n.Happens e n') :
    n.sessions.size ≤ n'.sessions.size := by
  cases h with
  | task hagenda hasked => exact Nat.le_of_eq (size_of_wiring_eq wiring_step).symm
  | launch t hagenda hreached =>
    rw [Network.launch, schedule, Array.size_push]
    exact Nat.le_succ _
  | drop y hagenda => exact Nat.le_of_eq Array.size_modify.symm
  | listen y r => exact Nat.le_of_eq Array.size_modify.symm
  | _ => exact Nat.le_refl _

theorem Runs.size_le {trace : List (Event τ)} (h : n.Runs trace n') :
    n.sessions.size ≤ n'.sessions.size := by
  induction h with
  | refl => exact Nat.le_refl _
  | snoc _ hnext ih => exact ih.trans hnext.size_le

/-- An event that a session is there after has not dropped it. -/
theorem Happens.passes_before {e : Event τ} (h : n.Happens e n') (hx : x < n.sessions.size)
    (hσ' : n'.session? x = some σ') : ∃ σ, n.session? x = some σ ∧ Passes n x σ e n' σ' := by
  rcases h.session_before hσ' with ⟨σ, hσ, hdrop⟩ | ⟨t, offset, reader, hsize, -⟩
  · obtain ⟨σ'', hσ'', hpasses⟩ := h.passes hσ hdrop
    obtain rfl := Option.some.inj (hσ''.symm.trans hσ')
    exact ⟨σ, hσ, hpasses⟩
  · exact (Nat.ne_of_lt hx hsize).elim

/-- What every event keeps of a session that it does not drop, a run keeps. -/
theorem Runs.follow {P : List (Event τ) → Network τ π → Session τ π → Prop}
    {trace : List (Event τ)} (h : n.Runs trace n') (hσ : n.session? x = some σ)
    (hstart : P [] n σ)
    (hnext : ∀ {trace m m' σ σ' e}, n.Runs trace m → m.session? x = some σ → P trace m σ →
      m.Happens e m' → m'.session? x = some σ' → Passes m x σ e m' σ' → P (trace ++ [e]) m' σ')
    (hσ' : n'.session? x = some σ') : P trace n' σ' := by
  induction h generalizing σ' with
  | refl =>
    obtain rfl := Option.some.inj (hσ.symm.trans hσ')
    exact hstart
  | @snoc trace m m' e hbefore hevent ih =>
    obtain ⟨σ₁, hσ₁, hpasses⟩ :=
      hevent.passes_before ((lt_size_of_session? hσ).trans_le hbefore.size_le) hσ'
    exact hnext hbefore hσ₁ (ih hσ₁) hevent hσ' hpasses

/-- What holds of a session when it is launched, and what every event keeps of it, holds of it in
every network that can come about. -/
theorem Reachable.follow {l : Lexer τ π} {P : Network τ π → Session τ π → Prop}
    (h : n.Reachable l)
    (hlaunch : ∀ {m : Network τ π} {t offset reader}, m.agenda = [] → x = m.sessions.size →
      (reader.start ≤ offset ∧ offset ≤ reader.reach) →
      P (m.launch t offset reader)
        ⟨t, .start m.lexer.rules offset, reader, .fresh, [], .stepping, false, true⟩)
    (hnext : ∀ {m m' σ σ' e}, m.Reachable l → m.session? x = some σ → P m σ →
      m.Happens e m' → m'.session? x = some σ' → Passes m x σ e m' σ' → P m' σ')
    (hσ : n.session? x = some σ) : P n σ := by
  obtain ⟨trace, hruns⟩ := h
  induction hruns generalizing σ with
  | refl => cases hσ
  | @snoc trace m m' e hbefore hevent ih =>
    rcases hevent.session_before hσ with ⟨σ₀, hσ₀, hdrop⟩ |
      ⟨t, offset, reader, hx, hagenda, hreached, rfl⟩
    · obtain ⟨σ₁, hσ₁, hpasses⟩ := hevent.passes hσ₀ hdrop
      obtain rfl := Option.some.inj (hσ₁.symm.trans hσ)
      exact hnext ⟨trace, hbefore⟩ hσ₀ (ih hσ₀) hevent hσ hpasses
    · rw [hx, session?_launch_size] at hσ
      obtain rfl := Option.some.inj hσ
      exact hlaunch hagenda hx hreached

end Turns

end Network

end DerivativeLexer
