import DerivativeLexer.Proofs.Session.Ahead
import DerivativeLexer.Proofs.Session.Lifecycle

/-! # Cancellation

A session may be cancelled at any time: while it waits for input, or by somebody that is told
something while an action of it is under way. The action goes on to its end, but no other action
starts, and the session stops. Only the action that reads the end of the input decides how the
session ends in spite of the cancellation. -/

namespace DerivativeLexer

variable {τ π : Type}

/-- The next task starts an action of the session. Behind the effects of an action stands a task
that says how the session goes on. -/
def Network.StartsAction (n : Network τ π) (x : Nat) : Prop :=
  ∃ rest added, n.agenda = .drain x :: rest ∧ n.step.agenda = added ++ rest ∧
    ((∃ replays, .proceed x replays ∈ added) ∨ .finish x .terminated ∈ added)

/-- The items that the tasks emit; what stands behind the closing of the output is lost. -/
def Task.emissions : List (Task τ) → List τ
  | [] => []
  | .emit _ item :: rest => item :: emissions rest
  | .close _ :: _ | .finish _ _ :: _ => []
  | _ :: rest => emissions rest

/-- What the action under way still emits. -/
def Session.remaining (σ : Session τ π) (x : Nat) (agenda : List (Task τ)) : List τ :=
  if σ.output.closed then [] else Task.emissions (Task.own x agenda)

/-- The status of a cancelled session that would have come to `status`. -/
def SessionStatus.overruled (status : SessionStatus) : SessionStatus :=
  if status.isLive then .cancelled else status

/-- The session was cancelled, and its tasks amount to an output and, where they leave the session
live, to a cancellation. -/
structure Doomed (x : Nat) (items : List τ) (status : SessionStatus) (σ : Session τ π)
    (agenda : List (Task τ)) : Prop where
  cancelled : σ.cancelled = true
  items_eq : ((Task.own x agenda).foldl Task.carry (σ.alone .fresh)).output.queue = items
  status_eq :
    ((Task.own x agenda).foldl Task.carry (σ.alone .fresh)).status.overruled = status

section

variable {l : Lexer τ π} {n m : Network τ π} {x : Nat} {σ σ' : Session τ π} {task : Task τ}
  {rest added agenda : List (Task τ)} {run : SoloRun τ π}

/-! ### What the tasks amount to -/

theorem Task.output_carry_of_closed (hclosed : run.output.closed = true) (task : Task τ) :
    (carry run task).output = run.output := by
  have hclose : run.output.close = run.output := by
    rw [Source.close_eq_grow, Source.grow_of_closed hclosed]
  cases task with
  | emit y item => exact Source.push_closed hclosed [item]
  | close y => exact hclose
  | finish y status => exact hclose
  | _ => rfl

theorem Task.output_foldl_carry_of_closed (tasks : List (Task τ))
    (hclosed : run.output.closed = true) : (tasks.foldl carry run).output = run.output := by
  induction tasks generalizing run with
  | nil => rfl
  | cons task rest ih =>
    have hsame := output_carry_of_closed hclosed task
    rw [List.foldl_cons, ih (by rw [hsame]; exact hclosed), hsame]

theorem Task.queue_foldl_carry (tasks : List (Task τ)) (run : SoloRun τ π) :
    (tasks.foldl carry run).output.queue =
      run.output.queue ++ if run.output.closed then [] else emissions tasks := by
  induction tasks generalizing run with
  | nil =>
    rw [emissions, ite_self, List.append_nil]
    rfl
  | cons task rest ih =>
    cases hrun : run.output.closed with
    | true =>
      rw [output_foldl_carry_of_closed _ hrun, if_pos rfl, List.append_nil]
    | false =>
      rw [List.foldl_cons, if_neg Bool.false_ne_true]
      cases task with
      | emit y item =>
        have hopen : (carry run (.emit y item)).output.closed = false :=
          (Source.closed_push _ _).trans hrun
        have hqueue : (carry run (.emit y item)).output.queue = run.output.queue ++ [item] :=
          Source.queue_push_open hrun [item]
        rw [ih, hopen, hqueue, if_neg Bool.false_ne_true, List.append_assoc]
        rfl
      | close y =>
        have hclosed : (carry run (.close y)).output.closed = true := rfl
        rw [output_foldl_carry_of_closed rest hclosed, emissions, List.append_nil]
        rfl
      | finish y status =>
        have hclosed : (carry run (.finish y status)).output.closed = true := rfl
        rw [output_foldl_carry_of_closed rest hclosed, emissions, List.append_nil]
        rfl
      | _ =>
        rw [ih, carry, hrun, if_neg Bool.false_ne_true]
        rfl

theorem Task.status_foldl_carry {work : List (Task τ)} (hwork : ∀ task ∈ work, task.Writes x)
    (run : SoloRun τ π) : (work.foldl carry run).status = run.status := by
  induction work generalizing run with
  | nil => rfl
  | cons task rest ih =>
    rw [List.foldl_cons, ih (fun other hother => hwork other (List.mem_cons_of_mem task hother))]
    cases hwork task List.mem_cons_self with
    | emit item => rfl
    | close => rfl

/-- When somebody else's task is next, only the action that reads the end of the input has decided
how a live session ends. -/
theorem Stage.overruled_eq (h : Stage l x σ (task :: rest)) (howner : task.owner? ≠ some x)
    (hlive : σ.status.isLive = true) :
    (.finish x .terminated ∈ task :: rest →
      ((Task.own x (task :: rest)).foldl Task.carry (σ.alone .fresh)).status.overruled =
        .terminated) ∧
    (.finish x .terminated ∉ task :: rest →
      ((Task.own x (task :: rest)).foldl Task.carry (σ.alone .fresh)).status.overruled =
        .cancelled) := by
  have hoverruled : ∀ {status : SessionStatus}, status.isLive = true →
      status.overruled = .cancelled := fun h => if_pos h
  have hmem : .finish x .terminated ∈ Task.own x (task :: rest) ↔
      .finish x .terminated ∈ task :: rest := Task.mem_own_iff rfl
  rw [← hmem]
  cases h with
  | idle hown =>
    rw [hown]
    exact ⟨fun hmem => (nomatch hmem), fun _ => hoverruled hlive⟩
  | ready => exact (howner rfl).elim
  | rested => exact (howner rfl).elim
  | failing => exact (howner rfl).elim
  | cancelling => exact (howner rfl).elim
  | @acting _ work replays hown hwork =>
    rw [hown, List.foldl_append]
    refine ⟨fun hmem => ?_, fun _ => hoverruled ?_⟩
    · rcases List.mem_append.1 hmem with hmem | hmem
      · cases hwork _ hmem
      · cases List.mem_singleton.1 hmem
    · refine SessionStatus.isLive_afterFire ?_ replays
      rw [Task.status_foldl_carry hwork]
      exact hlive
  | @ending _ work hown =>
    rw [hown, List.foldl_append]
    refine ⟨fun _ => rfl, fun hmem => (hmem ?_).elim⟩
    exact List.mem_append_right work (List.mem_singleton_self _)
  | closing _ _ hfinal =>
    rw [hfinal.not_isLive] at hlive
    cases hlive
  | closed _ _ hfinal =>
    rw [hfinal.not_isLive] at hlive
    cases hlive
  | done _ _ hfinal =>
    rw [hfinal.not_isLive] at hlive
    cases hlive

/-! ### A cancelled session -/

namespace Doomed

variable {items : List τ} {status : SessionStatus}

/-- A cancelled session does not move. -/
theorem turn_drain (h : Doomed x items status σ (.drain x :: rest))
    (hstage : Stage n.lexer x σ (.drain x :: rest))
    (hturn : Network.Turn n x σ (.drain x) σ' added) :
    Doomed x items status σ' (added ++ rest) := by
  obtain ⟨hcancelled, hitems, hstatus⟩ := h
  obtain ⟨hown, -, hreading⟩ := hstage.of_drain
  rw [Task.own_cons rfl, hown] at hitems hstatus
  have hcancelled' : ∀ {p : Prop}, σ.cancelled = false → p := fun h => by
    rw [hcancelled] at h
    cases h
  have hadded : ∀ {task : Task τ}, task.owner? = some x → Task.own x ([task] ++ rest) = [task] := by
    intro task howner
    rw [List.singleton_append, Task.own_cons howner, hown]
  cases hturn with
  | elsewhere howner => exact (howner rfl).elim
  | halts hstopped =>
    have hlive := hreading.live
    rw [hstopped] at hlive
    cases hlive
  | heeds =>
    refine ⟨hcancelled, ?_, ?_⟩
    · rw [hadded rfl]
      exact hitems
    · rw [hadded rfl, ← hstatus]
      exact (if_pos hreading.live).symm
  | rests _ h => exact hcancelled' h
  | reads _ h => exact hcancelled' h
  | fires _ h => exact hcancelled' h
  | ends _ h => exact hcancelled' h
  | fails _ h => exact hcancelled' h

theorem turn (h : Doomed x items status σ (task :: rest))
    (hstage : Stage n.lexer x σ (task :: rest)) (hturn : Network.Turn n x σ task σ' added) :
    Doomed x items status σ' (added ++ rest) := by
  by_cases hdrain : task = .drain x
  · subst hdrain
    exact h.turn_drain hstage hturn
  · have hahead := hturn.ahead_eq hdrain rest .fresh
    refine ⟨hturn.cancelled_mono h.cancelled, ?_, ?_⟩
    · rw [hahead]
      exact h.items_eq
    · rw [hahead]
      exact h.status_eq

theorem at_rest (h : Doomed x items status σ []) (hstage : Stage l x σ []) :
    σ.items = items ∧ σ.status = status ∧ σ.output.closed = true := by
  rcases hstage.at_rest with ⟨-, hcalm⟩ | ⟨-, hfinal, hclosed⟩
  · have hcancelled := h.cancelled
    rw [hcalm.cancelled_eq] at hcancelled
    cases hcancelled
  · refine ⟨h.items_eq, ?_, hclosed⟩
    have hstatus : σ.status.overruled = status := h.status_eq
    rw [← hstatus, SessionStatus.overruled, hfinal.not_isLive]
    rfl

end Doomed

namespace Network

/-- What is on the agenda decides what a cancelled session comes to. -/
theorem Reachable.doomed {trace : List (Event τ)} (h : n.Reachable l)
    (hagenda : n.agenda = .request (.cancel x) :: rest) (hσ : n.session? x = some σ)
    (hruns : n.step.Runs trace m) (hσ' : m.session? x = some σ') :
    σ.items <+: σ'.items ∧
      Doomed x ((Task.own x n.agenda).foldl Task.carry (σ.alone .fresh)).output.queue
        ((Task.own x n.agenda).foldl Task.carry (σ.alone .fresh)).status.overruled σ' m.agenda := by
  have hfirst : n.Happens (.task (.request (.cancel x)) []) n.step := .task hagenda (.inl rfl)
  obtain ⟨rest', σ₁, added, hagenda', hturn, hσ₁, hadded⟩ := hfirst.turn hσ
  obtain rfl : rest = rest' := (List.cons.inj (hagenda.symm.trans hagenda')).2
  have hahead := hturn.ahead_eq (fun h => nomatch h) rest .fresh
  rw [← hadded, ← hagenda] at hahead
  have hcancelled : σ₁.cancelled = true := by
    cases hturn with
    | elsewhere _ hcancel => exact (hcancel rfl).elim
    | flagged => rfl
    | cancelled => rfl
  rw [← hahead]
  refine hruns.follow (P := fun _ m ρ => σ.items <+: ρ.items ∧ Doomed x
    ((Task.own x n.step.agenda).foldl Task.carry (σ₁.alone .fresh)).output.queue
    ((Task.own x n.step.agenda).foldl Task.carry (σ₁.alone .fresh)).status.overruled ρ m.agenda)
    hσ₁ ⟨hturn.items_prefix, hcancelled, rfl, rfl⟩ ?_ hσ'
  intro trace m m' ρ ρ' e hbefore hρ hdoomed _ _ hpasses
  obtain ⟨hitems, hdoomed⟩ := hdoomed
  cases hpasses with
  | @turn task _ rest _ _ _ hagenda hturn hadded =>
    have hstage := ((h.runs (.one hfirst)).runs hbefore).stage hρ
    rw [hagenda] at hdoomed hstage
    rw [hadded]
    exact ⟨hitems.trans hturn.items_prefix,
      hdoomed.turn (n := { m with agenda := rest }) hstage hturn⟩
  | @aside listeners added _ hadded hforeign _ =>
    have hown : Task.own x (added ++ m.agenda) = Task.own x m.agenda := by
      rw [Task.own_append, Task.own_of_not_about hforeign, List.nil_append]
    rw [hadded]
    refine ⟨hitems, hdoomed.cancelled, ?_, ?_⟩
    · rw [hown]
      exact hdoomed.items_eq
    · rw [hown]
      exact hdoomed.status_eq

theorem StartsAction.not_cancelled (h : m.StartsAction x) (hσ : m.session? x = some σ) :
    σ.cancelled = false := by
  obtain ⟨rest, added, hagenda, hadded, hstarts⟩ := h
  have hnext : m.Happens (.task (.drain x) []) m.step := .task hagenda (.inl rfl)
  obtain ⟨rest', σ', added', hagenda', hturn, -, hadded'⟩ := hnext.turn hσ
  obtain rfl : rest = rest' := (List.cons.inj (hagenda.symm.trans hagenda')).2
  obtain rfl : added = added' := List.append_cancel_right (hadded.symm.trans hadded')
  have hsingle : ∀ {task : Task τ},
      ((∃ replays, .proceed x replays ∈ [task]) ∨ .finish x .terminated ∈ [task]) →
      (∃ replays, task = .proceed x replays) ∨ task = .finish x .terminated := by
    rintro task (⟨replays, hmem⟩ | hmem)
    · exact .inl ⟨replays, (List.mem_singleton.1 hmem).symm⟩
    · exact .inr (List.mem_singleton.1 hmem).symm
  cases hturn with
  | elsewhere howner => exact (howner rfl).elim
  | halts =>
    rcases hsingle hstarts with ⟨replays, htask⟩ | htask
    · cases htask
    · cases htask
  | heeds =>
    rcases hsingle hstarts with ⟨replays, htask⟩ | htask
    · cases htask
    · cases htask
  | rests _ hcancelled => exact hcancelled
  | reads _ hcancelled => exact hcancelled
  | fires _ hcancelled => exact hcancelled
  | ends _ hcancelled => exact hcancelled
  | fails _ hcancelled => exact hcancelled

end Network

/-- A session is cancelled at any time of any run, and other things happen. No action of it starts
any more, and only the action under way goes on. In the end a session that was live is cancelled,
unless the action under way was the last one; a session that had stopped stays as it was. -/
theorem cancellation {trace : List (Event τ)} (h : n.Reachable l)
    (hagenda : n.agenda = .request (.cancel x) :: rest) (hσ : n.session? x = some σ)
    (hruns : n.step.Runs trace m) (hσ' : m.session? x = some σ') :
    ¬m.StartsAction x ∧
      (∃ emitted, σ'.items = σ.items ++ emitted ∧ emitted <+: σ.remaining x n.agenda ∧
        (m.agenda = [] → emitted = σ.remaining x n.agenda)) ∧
      (σ.status.isLive = true → m.agenda = [] → σ'.output.closed = true ∧
        (.finish x .terminated ∈ n.agenda →
          σ'.status = .terminated ∧ σ'.status.error? = none) ∧
        (.finish x .terminated ∉ n.agenda →
          σ'.status = .cancelled ∧ σ'.status.error? = some .cancelled)) ∧
      (σ.status.isLive = false → σ'.status = σ.status ∧ σ'.items = σ.items) := by
  have hfirst : n.Runs [.task (.request (.cancel x)) []] n.step := .one (.task hagenda (.inl rfl))
  have hreachable : m.Reachable l := (h.runs hfirst).runs hruns
  obtain ⟨⟨emitted, hemitted⟩, hdoomed⟩ := h.doomed hagenda hσ hruns hσ'
  have hitems : ((Task.own x n.agenda).foldl Task.carry (σ.alone .fresh)).output.queue =
      σ.items ++ σ.remaining x n.agenda := Task.queue_foldl_carry _ _
  have hrest : m.agenda = [] → σ'.items = σ.items ++ σ.remaining x n.agenda ∧
      σ'.status = ((Task.own x n.agenda).foldl Task.carry (σ.alone .fresh)).status.overruled ∧
      σ'.output.closed = true := by
    intro hnil
    have hstage := hreachable.stage hσ'
    rw [hnil] at hdoomed hstage
    rw [← hitems]
    exact hdoomed.at_rest hstage
  refine ⟨fun hstarts => ?_, ⟨emitted, hemitted.symm, ?_, fun hnil => ?_⟩, fun hlive hnil => ?_,
    fun hstopped => h.stays_stopped hσ hstopped (hfirst.trans hruns) hσ'⟩
  · have hcancelled := hdoomed.cancelled
    rw [hstarts.not_cancelled hσ'] at hcancelled
    cases hcancelled
  · -- what the session has emitted by now is a part of what its tasks amount to
    have hprefix : σ'.items <+: σ.items ++ σ.remaining x n.agenda := by
      rw [← hitems, ← hdoomed.items_eq, Task.queue_foldl_carry]
      exact List.prefix_append _ _
    rw [← hemitted] at hprefix
    exact (List.prefix_append_right_inj _).1 hprefix
  · have hall := (hrest hnil).1
    rw [← hemitted] at hall
    exact List.append_cancel_left hall
  · obtain ⟨-, hstatus, hclosed⟩ := hrest hnil
    have hstage := h.stage hσ
    rw [hagenda] at hstage hstatus ⊢
    obtain ⟨hlast, hother⟩ := hstage.overruled_eq (fun h => nomatch h) hlive
    refine ⟨hclosed, fun hmem => ?_, fun hmem => ?_⟩
    · rw [hstatus, hlast hmem]
      exact ⟨rfl, rfl⟩
    · rw [hstatus, hother hmem]
      exact ⟨rfl, rfl⟩

end

/-! ### An action that is interrupted -/

namespace Network

/-- A listener cancels the session at the first item that it is told. -/
def interrupted : Network String Unit :=
  ((echoing.listen 0 ⟨fun _ => true, 1, [.cancel 0]⟩).schedule
    [.request (.source (.push 0 "aa".toList))]).settle 6

end Network

theorem cancellation_sample :
    ∃ (σ σ' : Session String Unit) (rest : List (Task String)) (trace : List (Event String)),
      Network.interrupted.Reachable .echo ∧
        Network.interrupted.agenda = .request (.cancel 0) :: rest ∧
        Network.interrupted.session? 0 = some σ ∧ σ.items = ["a"] ∧ σ.status = .stepping ∧
        Network.interrupted.step.Runs trace (Network.interrupted.step.settle 60) ∧
        (Network.interrupted.step.settle 60).session? 0 = some σ' ∧ σ'.items = ["a", "A"] ∧
        σ'.status = .cancelled ∧ σ'.output.closed = true ∧
        ¬(Network.interrupted.step.settle 60).StartsAction 0 := by
  obtain ⟨σ, hσ⟩ : ∃ σ, Network.interrupted.session? 0 = some σ :=
    ⟨_, (Option.some_get (by decide +kernel)).symm⟩
  obtain ⟨σ', hσ'⟩ : ∃ σ', (Network.interrupted.step.settle 60).session? 0 = some σ' :=
    ⟨_, (Option.some_get (by decide +kernel)).symm⟩
  have hbegun : (Network.interrupted.session? 0).map
      (fun σ => (σ.items, σ.status, σ.remaining 0 Network.interrupted.agenda)) =
        some (["a"], .stepping, ["A"]) := by decide +kernel
  rw [hσ, Option.map_some, Option.some_inj, Prod.mk.injEq, Prod.mk.injEq] at hbegun
  obtain ⟨hitems, hstatus, hremaining⟩ := hbegun
  have hagenda : Network.interrupted.agenda = [.request (.cancel 0),
      .request (.source (.push 0 ['b'])), .emit 0 "A", .proceed 0 false] := by decide +kernel
  have hlive : σ.status.isLive = true := by
    rw [hstatus]
    rfl
  have hreachable : Network.interrupted.Reachable .echo := by
    obtain ⟨before, hbefore⟩ := ((Network.echoing.listen 0 ⟨fun _ => true, 1, [.cancel 0]⟩).schedule
      [.request (.source (.push 0 "aa".toList))]).exists_runs_settle 6
    refine Network.Reachable.runs ?_ hbefore
    refine (Network.reachable_echoing.runs (.one (.listen 0 _))).runs (.one (.call _ ?_))
    decide +kernel
  obtain ⟨trace, hruns⟩ := Network.interrupted.step.exists_runs_settle 60
  obtain ⟨hstarts, ⟨emitted, hemitted, -, hrest⟩, hended, -⟩ :=
    cancellation hreachable hagenda hσ hruns hσ'
  have hnil : (Network.interrupted.step.settle 60).agenda = [] := by decide +kernel
  obtain ⟨hclosed, -, hcancelled⟩ := hended hlive hnil
  obtain ⟨hstatus', -⟩ := hcancelled (by decide +kernel)
  rw [hrest hnil, hremaining, hitems] at hemitted
  exact ⟨σ, σ', _, trace, hreachable, hagenda, hσ, hitems, hstatus, hruns, hσ', hemitted, hstatus',
    hclosed, hstarts⟩

end DerivativeLexer
