import DerivativeLexer.Proofs.Lexer.Replaying
import DerivativeLexer.Proofs.Session.Turns

/-! # The stages of a session

At any moment of any run a session is at one of a few stages. The stage says which tasks of the
session are on the agenda, and what the status, the output and the place of the engine are then.
Four of the stages last for one task only: it is the next one to be done, so nobody can ask for
anything meanwhile. -/

namespace DerivativeLexer

variable {τ π : Type}

/-- The statuses that a session can end with. -/
inductive SessionStatus.Final : SessionStatus → Prop
  | terminated : Final .terminated
  | failed {error : LexError} (h : error.Stops) : Final (.failed error)
  | cancelled : Final .cancelled

theorem SessionStatus.Final.not_isLive {status : SessionStatus} (h : status.Final) :
    status.isLive = false := by
  cases h with
  | terminated => rfl
  | failed => rfl
  | cancelled => rfl

theorem SessionStatus.eq_stepping {status : SessionStatus} (hlive : status.isLive = true)
    (h : status ≠ .backtracking) : status = .stepping := by
  cases status with
  | stepping => rfl
  | backtracking => exact (h rfl).elim
  | terminated => cases hlive
  | failed e => cases hlive
  | cancelled => cases hlive

namespace Session

/-- The session is live, has its place in the text, and its status says whether it reads
characters again. -/
structure Reading (l : Lexer τ π) (σ : Session τ π) : Prop where
  live : σ.status.isLive = true
  placed : Engine.Placed l.rules σ.reader σ.engine
  status_iff : σ.status = .backtracking ↔ σ.engine.replaying = true

/-- The session found nothing to read and was not cancelled by then. -/
structure Calm (l : Lexer τ π) (σ : Session τ π) : Prop extends σ.Reading l where
  status_eq : σ.status = .stepping
  cancelled_eq : σ.cancelled = false

end Session

/-- The task puts something into the output of the session. -/
inductive Task.Writes (x : Nat) : Task τ → Prop
  | emit (item : τ) : Writes x (.emit x item)
  | close : Writes x (.close x)

inductive Stage (l : Lexer τ π) (x : Nat) (σ : Session τ π) : List (Task τ) → Prop
  /-- The session waits for input. -/
  | idle {agenda : List (Task τ)} (hown : Task.own x agenda = []) (hbusy : σ.busy = false)
      (hcalm : σ.Calm l) : Stage l x σ agenda
  | ready {rest : List (Task τ)} (hown : Task.own x rest = []) (hbusy : σ.busy = true)
      (hreading : σ.Reading l) : Stage l x σ (.drain x :: rest)
  | rested {rest : List (Task τ)} (hown : Task.own x rest = []) (hbusy : σ.busy = true)
      (hcalm : σ.Calm l) : Stage l x σ (.release x :: rest)
  | failing {error : LexError} {rest : List (Task τ)} (hown : Task.own x rest = [])
      (hbusy : σ.busy = true) (hlive : σ.status.isLive = true) (hstops : error.Stops) :
      Stage l x σ (.finish x (.failed error) :: rest)
  | cancelling {rest : List (Task τ)} (hown : Task.own x rest = []) (hbusy : σ.busy = true)
      (hlive : σ.status.isLive = true) (hcancelled : σ.cancelled = true) :
      Stage l x σ (.finish x .cancelled :: rest)
  /-- An action is under way. -/
  | acting {agenda work : List (Task τ)} {replays : Bool}
      (hown : Task.own x agenda = work ++ [.proceed x replays])
      (hwork : ∀ task ∈ work, task.Writes x) (hbusy : σ.busy = true)
      (hlive : σ.status.isLive = true) (hplaced : Engine.Placed l.rules σ.reader σ.engine)
      (hreplays : σ.engine.replaying = true ↔ replays = true ∨ σ.status = .backtracking) :
      Stage l x σ agenda
  /-- The action of the rule that reads the end of the input is under way. -/
  | ending {agenda work : List (Task τ)}
      (hown : Task.own x agenda = work ++ [.finish x .terminated])
      (hwork : ∀ task ∈ work, task.Writes x) (hbusy : σ.busy = true)
      (hlive : σ.status.isLive = true) : Stage l x σ agenda
  | closing {agenda : List (Task τ)} (hown : Task.own x agenda = [.close x, .release x])
      (hbusy : σ.busy = true) (hfinal : σ.status.Final) : Stage l x σ agenda
  | closed {agenda : List (Task τ)} (hown : Task.own x agenda = [.release x])
      (hbusy : σ.busy = true) (hfinal : σ.status.Final) (hclosed : σ.output.closed = true) :
      Stage l x σ agenda
  | done {agenda : List (Task τ)} (hown : Task.own x agenda = []) (hbusy : σ.busy = false)
      (hfinal : σ.status.Final) (hclosed : σ.output.closed = true) : Stage l x σ agenda

namespace Task

variable {x : Nat} {task last : Task τ} {tasks rest work : List (Task τ)}

theorem own_of_not_about (h : ∀ task ∈ tasks, ¬task.About x) : own x tasks = [] := by
  unfold own
  rw [List.filter_eq_nil_iff]
  intro task htask
  rw [beq_iff_eq]
  exact fun howner => h task htask (.inl howner)

theorem mem_own_iff (howner : task.owner? = some x) : task ∈ own x tasks ↔ task ∈ tasks := by
  unfold own
  rw [List.mem_filter, howner, beq_self_eq_true]
  exact and_iff_left rfl

theorem own_outputTellings (n : Network τ π) (items : List τ) :
    own x (n.outputTellings x items) = [] := by
  unfold own
  rw [List.filter_eq_nil_iff]
  intro task htask
  obtain ⟨k, rfl⟩ := Network.mem_outputTellings htask
  rw [beq_iff_eq]
  exact fun h => nomatch h

theorem writes_effects (effects : List (Effect τ)) :
    ∀ task ∈ own x (effects.map (Network.effectTask x)), task.Writes x := by
  intro task htask
  obtain ⟨hmem, howner⟩ := List.mem_filter.1 htask
  obtain ⟨effect, -, rfl⟩ := List.mem_map.1 hmem
  cases effect with
  | emit item => exact .emit item
  | close => exact .close
  | request r => cases (beq_iff_eq.1 howner : (none : Option Nat) = some x)

theorem Writes.owner (h : task.Writes x) : task.owner? = some x := by
  cases h with
  | emit item => rfl
  | close => rfl

/-- The first task of what an action has left writes something or is the one behind. -/
theorem split_work (h : task :: rest = work ++ [last]) :
    (∃ work', work = task :: work' ∧ rest = work' ++ [last]) ∨
      (work = [] ∧ task = last ∧ rest = []) := by
  cases work with
  | nil =>
    obtain ⟨rfl, rfl⟩ := List.cons.inj h
    exact .inr ⟨rfl, rfl, rfl⟩
  | cons first work' =>
    obtain ⟨rfl, rfl⟩ := List.cons.inj h
    exact .inl ⟨work', rfl, rfl⟩

/-- A task that writes nothing is behind all that an action has left to write. -/
theorem of_split_work (h : task :: rest = work ++ [last]) (hwork : ∀ task ∈ work, task.Writes x)
    (hne : ¬task.Writes x) : task = last ∧ rest = [] := by
  rcases split_work h with ⟨work', rfl, -⟩ | ⟨-, htask, hrest⟩
  · exact (hne (hwork task List.mem_cons_self)).elim
  · exact ⟨htask, hrest⟩

end Task

namespace Stage

variable {l : Lexer τ π} {n : Network τ π} {x : Nat} {σ σ' : Session τ π} {task : Task τ}
  {rest added agenda : List (Task τ)}

/-! ### What others can do -/

theorem of_session_eq (h : Stage l x σ agenda) (hengine : σ'.engine = σ.engine)
    (hreader : σ'.reader = σ.reader) (houtput : σ'.output = σ.output)
    (hstatus : σ'.status = σ.status) (hcancelled : σ'.cancelled = σ.cancelled)
    (hbusy : σ'.busy = σ.busy) : Stage l x σ' agenda := by
  have hreading : σ.Reading l → σ'.Reading l := by
    rintro ⟨hlive, hplaced, hiff⟩
    constructor
    · rwa [hstatus]
    · rwa [hreader, hengine]
    · rwa [hstatus, hengine]
  have hcalm : σ.Calm l → σ'.Calm l := fun h =>
    ⟨hreading h.toReading, hstatus.trans h.status_eq, hcancelled.trans h.cancelled_eq⟩
  cases h with
  | idle hown hidle h => exact .idle hown (hbusy.trans hidle) (hcalm h)
  | ready hown hworks h => exact .ready hown (hbusy.trans hworks) (hreading h)
  | rested hown hworks h => exact .rested hown (hbusy.trans hworks) (hcalm h)
  | failing hown hworks hlive hstops =>
    exact .failing hown (hbusy.trans hworks) (by rwa [hstatus]) hstops
  | cancelling hown hworks hlive hflag =>
    exact .cancelling hown (hbusy.trans hworks) (by rwa [hstatus]) (hcancelled.trans hflag)
  | acting hown hwork hworks hlive hplaced hreplays =>
    refine .acting hown hwork (hbusy.trans hworks) (by rwa [hstatus]) ?_ ?_
    · rwa [hreader, hengine]
    · rwa [hengine, hstatus]
  | ending hown hwork hworks hlive =>
    exact .ending hown hwork (hbusy.trans hworks) (by rwa [hstatus])
  | closing hown hworks hfinal => exact .closing hown (hbusy.trans hworks) (by rwa [hstatus])
  | closed hown hworks hfinal hclosed =>
    exact .closed hown (hbusy.trans hworks) (by rwa [hstatus]) (by rwa [houtput])
  | done hown hidle hfinal hclosed =>
    exact .done hown (hbusy.trans hidle) (by rwa [hstatus]) (by rwa [houtput])

/-- The next task is somebody else's, so the stage does not depend on what is in front. -/
theorem of_foreign (h : Stage l x σ (task :: rest)) (howner : task.owner? ≠ some x)
    (hown : Task.own x agenda = Task.own x rest) : Stage l x σ agenda := by
  have hrest : Task.own x (task :: rest) = Task.own x agenda := by
    rw [Task.own_cons_of_ne howner, hown]
  cases h with
  | idle hown' hbusy hcalm => exact .idle (hrest ▸ hown') hbusy hcalm
  | ready => exact (howner rfl).elim
  | rested => exact (howner rfl).elim
  | failing => exact (howner rfl).elim
  | cancelling => exact (howner rfl).elim
  | acting hown' hwork hbusy hlive hplaced hreplays =>
    exact .acting (hrest ▸ hown') hwork hbusy hlive hplaced hreplays
  | ending hown' hwork hbusy hlive => exact .ending (hrest ▸ hown') hwork hbusy hlive
  | closing hown' hbusy hfinal => exact .closing (hrest ▸ hown') hbusy hfinal
  | closed hown' hbusy hfinal hclosed => exact .closed (hrest ▸ hown') hbusy hfinal hclosed
  | done hown' hbusy hfinal hclosed => exact .done (hrest ▸ hown') hbusy hfinal hclosed

/-- Where nothing is left to do, the session waits or is done. -/
theorem at_rest (h : Stage l x σ []) :
    (σ.busy = false ∧ σ.Calm l) ∨
      (σ.busy = false ∧ σ.status.Final ∧ σ.output.closed = true) := by
  have hnil : ∀ {work : List (Task τ)} {last : Task τ},
      Task.own x ([] : List (Task τ)) ≠ work ++ [last] :=
    fun h => List.append_ne_nil_of_right_ne_nil _ (List.cons_ne_nil _ _) h.symm
  cases h with
  | idle hown hbusy hcalm => exact .inl ⟨hbusy, hcalm⟩
  | acting hown => exact (hnil hown).elim
  | ending hown => exact (hnil hown).elim
  | closing hown => cases hown
  | closed hown => cases hown
  | done hown hbusy hfinal hclosed => exact .inr ⟨hbusy, hfinal, hclosed⟩

/-- A session that is not busy has no task of its own on the agenda, and one that is live then
waits for input. -/
theorem of_not_busy (h : Stage l x σ agenda) (hbusy : σ.busy = false) :
    Task.own x agenda = [] ∧ (σ.status.isLive = true → σ.Calm l) := by
  have hbusy' : ∀ {p : Prop}, σ.busy = true → p := fun h => by
    rw [hbusy] at h
    cases h
  cases h with
  | idle hown _ hcalm => exact ⟨hown, fun _ => hcalm⟩
  | done hown _ hfinal _ =>
    refine ⟨hown, fun hlive => ?_⟩
    rw [hfinal.not_isLive] at hlive
    cases hlive
  | ready _ hbusy => exact hbusy' hbusy
  | rested _ hbusy => exact hbusy' hbusy
  | failing _ hbusy => exact hbusy' hbusy
  | cancelling _ hbusy => exact hbusy' hbusy
  | acting _ _ hbusy => exact hbusy' hbusy
  | ending _ _ hbusy => exact hbusy' hbusy
  | closing _ hbusy => exact hbusy' hbusy
  | closed _ hbusy => exact hbusy' hbusy

/-- A session that has stopped has at most its output to close. -/
theorem of_stopped (h : Stage l x σ agenda) (hstopped : σ.status.isLive = false) :
    σ.status.Final ∧ (Task.own x agenda = [.close x, .release x] ∨
      (σ.output.closed = true ∧
        (Task.own x agenda = [.release x] ∨ Task.own x agenda = []))) := by
  have hlive' : ∀ {p : Prop}, σ.status.isLive = true → p := fun h => by
    rw [hstopped] at h
    cases h
  cases h with
  | closing hown _ hfinal => exact ⟨hfinal, .inl hown⟩
  | closed hown _ hfinal hclosed => exact ⟨hfinal, .inr ⟨hclosed, .inl hown⟩⟩
  | done hown _ hfinal hclosed => exact ⟨hfinal, .inr ⟨hclosed, .inr hown⟩⟩
  | idle _ _ hcalm => exact hlive' hcalm.live
  | ready _ _ hreading => exact hlive' hreading.live
  | rested _ _ hcalm => exact hlive' hcalm.live
  | failing _ _ hlive => exact hlive' hlive
  | cancelling _ _ hlive => exact hlive' hlive
  | acting _ _ _ hlive => exact hlive' hlive
  | ending _ _ _ hlive => exact hlive' hlive

/-- A task of somebody else makes a session that waits for input look at it again. -/
theorem ready_of_idle (h : Stage l x σ (task :: rest)) (howner : task.owner? ≠ some x)
    (hbusy : σ.busy = false) (hlive : σ.status.isLive = true) (hengine : σ'.engine = σ.engine)
    (hreader : σ'.reader = σ.reader) (hstatus : σ'.status = σ.status) (hworks : σ'.busy = true) :
    Stage l x σ' (.drain x :: rest) := by
  obtain ⟨hown, hcalm⟩ := h.of_not_busy hbusy
  obtain ⟨hlive', hplaced, hiff⟩ := (hcalm hlive).toReading
  rw [Task.own_cons_of_ne howner] at hown
  refine .ready hown hworks ⟨?_, ?_, ?_⟩
  · rwa [hstatus]
  · rwa [hreader, hengine]
  · rwa [hstatus, hengine]

/-! ### The tasks of the session -/

theorem of_drain (h : Stage l x σ (.drain x :: rest)) :
    Task.own x rest = [] ∧ σ.busy = true ∧ σ.Reading l := by
  have hcons : Task.own x (.drain x :: rest) = .drain x :: Task.own x rest := Task.own_cons rfl
  have hwrites : ¬(Task.drain x : Task τ).Writes x := fun h => nomatch h
  cases h with
  | ready hown hbusy hreading => exact ⟨hown, hbusy, hreading⟩
  | idle hown => cases hcons.symm.trans hown
  | acting hown hwork => cases (Task.of_split_work (hcons.symm.trans hown) hwork hwrites).1
  | ending hown hwork => cases (Task.of_split_work (hcons.symm.trans hown) hwork hwrites).1
  | closing hown => cases hcons.symm.trans hown
  | closed hown => cases hcons.symm.trans hown
  | done hown => cases hcons.symm.trans hown

theorem of_proceed {replays : Bool} (h : Stage l x σ (.proceed x replays :: rest)) :
    Task.own x rest = [] ∧ σ.busy = true ∧ σ.status.isLive = true ∧
      Engine.Placed l.rules σ.reader σ.engine ∧
      (σ.engine.replaying = true ↔ replays = true ∨ σ.status = .backtracking) := by
  have hcons : Task.own x (.proceed x replays :: rest) = .proceed x replays :: Task.own x rest :=
    Task.own_cons rfl
  have hwrites : ¬(Task.proceed x replays : Task τ).Writes x := fun h => nomatch h
  cases h with
  | acting hown hwork hbusy hlive hplaced hreplays =>
    obtain ⟨hlast, hrest⟩ := Task.of_split_work (hcons.symm.trans hown) hwork hwrites
    cases hlast
    exact ⟨hrest, hbusy, hlive, hplaced, hreplays⟩
  | idle hown => cases hcons.symm.trans hown
  | ending hown hwork => cases (Task.of_split_work (hcons.symm.trans hown) hwork hwrites).1
  | closing hown => cases hcons.symm.trans hown
  | closed hown => cases hcons.symm.trans hown
  | done hown => cases hcons.symm.trans hown

theorem of_finish {status : SessionStatus} (h : Stage l x σ (.finish x status :: rest)) :
    Task.own x rest = [] ∧ σ.busy = true ∧ σ.status.isLive = true ∧ status.Final ∧
      (status = .cancelled → σ.cancelled = true) := by
  have hcons : Task.own x (.finish x status :: rest) = .finish x status :: Task.own x rest :=
    Task.own_cons rfl
  have hwrites : ¬(Task.finish x status : Task τ).Writes x := fun h => nomatch h
  cases h with
  | failing hown hbusy hlive hstops =>
    exact ⟨hown, hbusy, hlive, .failed hstops, fun h => nomatch h⟩
  | cancelling hown hbusy hlive hcancelled =>
    exact ⟨hown, hbusy, hlive, .cancelled, fun _ => hcancelled⟩
  | ending hown hwork hbusy hlive =>
    obtain ⟨hlast, hrest⟩ := Task.of_split_work (hcons.symm.trans hown) hwork hwrites
    cases hlast
    exact ⟨hrest, hbusy, hlive, .terminated, fun h => nomatch h⟩
  | idle hown => cases hcons.symm.trans hown
  | acting hown hwork => cases (Task.of_split_work (hcons.symm.trans hown) hwork hwrites).1
  | closing hown => cases hcons.symm.trans hown
  | closed hown => cases hcons.symm.trans hown
  | done hown => cases hcons.symm.trans hown

theorem of_release (h : Stage l x σ (.release x :: rest)) :
    Task.own x rest = [] ∧ σ.busy = true ∧
      (σ.Calm l ∨ (σ.status.Final ∧ σ.output.closed = true)) := by
  have hcons : Task.own x (.release x :: rest) = .release x :: Task.own x rest :=
    Task.own_cons rfl
  have hwrites : ¬(Task.release x : Task τ).Writes x := fun h => nomatch h
  cases h with
  | rested hown hbusy hcalm => exact ⟨hown, hbusy, .inl hcalm⟩
  | closed hown hbusy hfinal hclosed =>
    exact ⟨(List.cons.inj (hcons.symm.trans hown)).2, hbusy, .inr ⟨hfinal, hclosed⟩⟩
  | idle hown => cases hcons.symm.trans hown
  | acting hown hwork => cases (Task.of_split_work (hcons.symm.trans hown) hwork hwrites).1
  | ending hown hwork => cases (Task.of_split_work (hcons.symm.trans hown) hwork hwrites).1
  | closing hown => cases hcons.symm.trans hown
  | done hown => cases hcons.symm.trans hown

/-- After a task that writes into the output, the rest of the action is left. -/
theorem of_writes (h : Stage l x σ (task :: rest)) (hwrites : task.Writes x) {output : Source τ}
    (houtput : task = .close x → output.closed = true)
    (hown : Task.own x agenda = Task.own x rest) :
    Stage l x { σ with output := output } agenda := by
  have hcons : Task.own x (task :: rest) = task :: Task.own x rest := Task.own_cons hwrites.owner
  have hleft : ∀ {work : List (Task τ)} {last : Task τ},
      Task.own x (task :: rest) = work ++ [last] → (∀ task ∈ work, task.Writes x) →
        ¬last.Writes x →
          ∃ work', Task.own x agenda = work' ++ [last] ∧ ∀ task ∈ work', task.Writes x := by
    intro work last hown' hwork hlast
    rw [hcons] at hown'
    rcases Task.split_work hown' with ⟨work', rfl, hrest⟩ | ⟨-, rfl, -⟩
    · exact ⟨work', hown.trans hrest, fun task htask => hwork task (List.mem_cons_of_mem _ htask)⟩
    · exact (hlast hwrites).elim
  cases h with
  | acting hown' hwork hbusy hlive hplaced hreplays =>
    obtain ⟨work', hleft, hwork'⟩ := hleft hown' hwork (fun h => nomatch h)
    exact .acting hleft hwork' hbusy hlive hplaced hreplays
  | ending hown' hwork hbusy hlive =>
    obtain ⟨work', hleft, hwork'⟩ := hleft hown' hwork (fun h => nomatch h)
    exact .ending hleft hwork' hbusy hlive
  | closing hown' hbusy hfinal =>
    obtain ⟨htask, hrest⟩ := List.cons.inj (hcons.symm.trans hown')
    exact .closed (hown.trans hrest) hbusy hfinal (houtput htask)
  | idle hown' => cases hcons.symm.trans hown'
  | ready => cases hwrites
  | rested => cases hwrites
  | failing => cases hwrites
  | cancelling => cases hwrites
  | closed hown' =>
    obtain ⟨rfl, -⟩ := List.cons.inj (hcons.symm.trans hown')
    cases hwrites
  | done hown' => cases hcons.symm.trans hown'

/-- A task that writes into the output is not the last one of the session. -/
theorem own_ne_nil (h : Stage l x σ (task :: rest)) (hwrites : task.Writes x) :
    Task.own x rest ≠ [] := by
  have hcons : Task.own x (task :: rest) = task :: Task.own x rest := Task.own_cons hwrites.owner
  intro hnil
  rw [hnil] at hcons
  have hlast : ∀ {work : List (Task τ)} {last : Task τ},
      Task.own x (task :: rest) = work ++ [last] → last.Writes x := by
    intro work last hown
    rcases Task.split_work (hcons.symm.trans hown) with ⟨work', -, hrest⟩ | ⟨-, rfl, -⟩
    · exact (List.append_ne_nil_of_right_ne_nil _ (List.cons_ne_nil _ _) hrest.symm).elim
    · exact hwrites
  cases h with
  | idle hown => cases hcons.symm.trans hown
  | ready => cases hwrites
  | rested => cases hwrites
  | failing => cases hwrites
  | cancelling => cases hwrites
  | acting hown => cases hlast hown
  | ending hown => cases hlast hown
  | closing hown => cases hcons.symm.trans hown
  | closed hown =>
    cases (List.cons.inj (hcons.symm.trans hown)).1
    cases hwrites
  | done hown => cases hcons.symm.trans hown

theorem of_flagged (h : Stage l x σ (.request (.cancel x) :: rest))
    (hbusy : σ.busy = true ∨ σ.status.isLive = false) :
    Stage l x { σ with cancelled := true } rest := by
  have hrest : Task.own x (.request (.cancel x) :: rest) = Task.own x rest :=
    Task.own_cons_of_ne fun h => nomatch h
  rw [← Bool.not_eq_true] at hbusy
  cases h with
  | idle hown hidle hcalm =>
    rcases hbusy with hworks | hstopped
    · rw [hidle] at hworks
      cases hworks
    · exact (hstopped hcalm.live).elim
  | acting hown hwork hbusy hlive hplaced hreplays =>
    exact .acting (hrest ▸ hown) hwork hbusy hlive hplaced hreplays
  | ending hown hwork hbusy hlive => exact .ending (hrest ▸ hown) hwork hbusy hlive
  | closing hown hbusy hfinal => exact .closing (hrest ▸ hown) hbusy hfinal
  | closed hown hbusy hfinal hclosed => exact .closed (hrest ▸ hown) hbusy hfinal hclosed
  | done hown hbusy hfinal hclosed => exact .done (hrest ▸ hown) hbusy hfinal hclosed

/-! ### One task -/

theorem turn_drain (h : Stage n.lexer x σ (.drain x :: rest))
    (hturn : Network.Turn n x σ (.drain x) σ' added) : Stage n.lexer x σ' (added ++ rest) := by
  obtain ⟨hown, hbusy, hreading⟩ := h.of_drain
  have hfeed : Engine.Placed n.lexer.rules
      (⟨(n.source? σ.input).getD .fresh, σ.reader⟩ : Feed Char).reader σ.engine := hreading.placed
  obtain ⟨read, ahead, htracks⟩ := hfeed.tracks
  have hacts : ∀ (effects : List (Effect τ)) {last : Task τ}, last.owner? = some x →
      Task.own x (effects.map (Network.effectTask x) ++ [last] ++ rest) =
        Task.own x (effects.map (Network.effectTask x)) ++ [last] := by
    intro effects last hlast
    rw [Task.own_append, Task.own_append, hown, Task.own_cons hlast, List.append_nil]
    rfl
  cases hturn with
  | elsewhere howner => exact (howner rfl).elim
  | halts hstopped =>
    have hlive := hreading.live
    rw [hstopped] at hlive
    cases hlive
  | heeds hlive hcancelled => exact .cancelling hown hbusy hlive hcancelled
  | rests hlive hcancelled hmove =>
    have hreplaying := Engine.replaying_of_rest htracks hmove
    have hstatus : σ.status = .stepping := SessionStatus.eq_stepping hlive fun hback => by
      rw [hreading.status_iff.1 hback] at hreplaying
      cases hreplaying
    exact .rested hown hbusy ⟨hreading, hstatus, hcancelled⟩
  | @reads engine feed hlive hcancelled hmove =>
    refine .ready hown hbusy ⟨SessionStatus.isLive_afterRead hlive _,
      Engine.placed_of_read htracks hmove, ?_⟩
    have hback := Engine.replaying_of_read htracks hmove
    have hiff := hreading.status_iff
    simp only [SessionStatus.afterRead]
    cases hreplaying : engine.replaying with
    | true => simp [hiff, hback hreplaying]
    | false =>
      by_cases hstatus : σ.status = .backtracking
      · simp [hstatus]
      · simp [hstatus]
  | fires hlive hcancelled hmove =>
    refine .acting (hacts _ rfl) (Task.writes_effects _) hbusy hlive
      (Engine.placed_of_fire htracks hmove) ?_
    rw [hreading.status_iff]
    exact Engine.replaying_of_fire htracks hmove
  | ends hlive hcancelled hmove =>
    exact .ending (hacts _ rfl) (Task.writes_effects _) hbusy hlive
  | fails hlive hcancelled hmove =>
    exact .failing hown hbusy hlive (Engine.stops_of_fail htracks hmove)

theorem turn (h : Stage n.lexer x σ (task :: rest)) (hturn : Network.Turn n x σ task σ' added) :
    Stage n.lexer x σ' (added ++ rest) := by
  have hafter : Task.own x added = [] → Task.own x (added ++ rest) = Task.own x rest := by
    intro hadded
    rw [Task.own_append, hadded, List.nil_append]
  cases hturn with
  | elsewhere howner hcancel hawake hlength hadded =>
    exact (h.of_foreign howner (hafter (Task.own_of_not_about hadded))).of_session_eq
      rfl rfl rfl rfl rfl rfl
  | flagged hbusy => exact h.of_flagged hbusy
  | cancelled hbusy hlive =>
    exact h.ready_of_idle (fun h => nomatch h) hbusy hlive rfl rfl rfl rfl
  | woken hnotifies hbusy hlive =>
    exact h.ready_of_idle (fun h => nomatch h) hbusy hlive rfl rfl rfl rfl
  | emits hopen =>
    exact h.of_writes (.emit _) (fun h => nomatch h) (hafter (Task.own_outputTellings n _))
  | mute hclosed => exact h.of_writes (.emit _) (fun h => nomatch h) rfl
  | closes => exact h.of_writes .close (fun _ => rfl) (hafter (Task.own_outputTellings n _))
  | halts hstopped => exact h.turn_drain (.halts hstopped)
  | heeds hlive hcancelled => exact h.turn_drain (.heeds hlive hcancelled)
  | rests hlive hcancelled hmove => exact h.turn_drain (.rests hlive hcancelled hmove)
  | reads hlive hcancelled hmove => exact h.turn_drain (.reads hlive hcancelled hmove)
  | fires hlive hcancelled hmove => exact h.turn_drain (.fires hlive hcancelled hmove)
  | ends hlive hcancelled hmove => exact h.turn_drain (.ends hlive hcancelled hmove)
  | fails hlive hcancelled hmove => exact h.turn_drain (.fails hlive hcancelled hmove)
  | @proceeds replays =>
    obtain ⟨hown, hbusy, hlive, hplaced, hreplays⟩ := h.of_proceed
    refine .ready hown hbusy ⟨SessionStatus.isLive_afterFire hlive _, hplaced, ?_⟩
    rw [hreplays]
    cases replays with
    | true => simp [SessionStatus.afterFire]
    | false => simp [SessionStatus.afterFire]
  | finishes =>
    obtain ⟨hown, hbusy, hlive, hfinal, -⟩ := h.of_finish
    split_ifs with hclosed
    · refine .closed ?_ hbusy hfinal hclosed
      rw [Task.own_append, hown, Task.own_cons rfl]
      rfl
    · refine .closing ?_ hbusy hfinal
      rw [Task.own_append, hown, Task.own_cons rfl, Task.own_cons rfl]
      rfl
  | releases =>
    obtain ⟨hown, hbusy, hcalm | ⟨hfinal, hclosed⟩⟩ := h.of_release
    · exact .idle hown rfl ⟨⟨hcalm.live, hcalm.placed, hcalm.status_iff⟩, hcalm.status_eq,
        hcalm.cancelled_eq⟩
    · exact .done hown rfl hfinal hclosed

theorem launch {t offset : Nat} {reader : Reader Char} (hagenda : n.agenda = [])
    (hreached : reader.start ≤ offset ∧ offset ≤ reader.reach) :
    Stage n.lexer n.sessions.size
      ⟨t, .start n.lexer.rules offset, reader, .fresh, [], .stepping, false, true⟩
      (n.launch t offset reader).agenda := by
  have hreplaying : (Engine.start n.lexer.rules offset).replaying = false :=
    decide_eq_false (Nat.lt_irrefl offset)
  refine .ready ?_ rfl ⟨rfl, Engine.placed_start hreached, ?_⟩
  · rw [hagenda]
    rfl
  · constructor
    · intro h
      cases h
    · intro h
      rw [hreplaying] at h
      cases h

theorem aside {listeners : List (Reaction τ)} (h : Stage l x σ agenda)
    (hforeign : ∀ task ∈ added, ¬task.About x) (hidle : added = [] ∨ agenda = []) :
    Stage l x { σ with listeners := listeners } (added ++ agenda) := by
  have hsame : Stage l x σ (added ++ agenda) := by
    rcases hidle with rfl | rfl
    · exact h
    · have hown : Task.own x (added ++ []) = [] := by
        rw [List.append_nil]
        exact Task.own_of_not_about hforeign
      rcases h.at_rest with ⟨hbusy, hcalm⟩ | ⟨hbusy, hfinal, hclosed⟩
      · exact .idle hown hbusy hcalm
      · exact .done hown hbusy hfinal hclosed
  exact hsame.of_session_eq rfl rfl rfl rfl rfl rfl

end Stage

/-- In every network that can come about every session is at one of the stages. -/
theorem Network.Reachable.stage {l : Lexer τ π} {n : Network τ π} {x : Nat} {σ : Session τ π}
    (h : n.Reachable l) (hσ : n.session? x = some σ) : Stage n.lexer x σ n.agenda := by
  refine h.follow (P := fun n σ => Stage n.lexer x σ n.agenda) ?_ ?_ hσ
  · intro m t offset reader hagenda hx hreached
    rw [hx]
    exact .launch hagenda hreached
  · intro m m' σ σ' e _ _ hstage hevent _ hpasses
    rw [hevent.lexer_eq]
    cases hpasses with
    | @turn _ _ rest _ _ _ hagenda hturn hadded =>
      rw [hagenda] at hstage
      rw [hadded]
      exact Stage.turn (n := { m with agenda := rest }) hstage hturn
    | aside _ hadded hforeign hidle =>
      rw [hadded]
      exact hstage.aside hforeign hidle

end DerivativeLexer
