import DerivativeLexer.Proofs.Lexer.Settling
import DerivativeLexer.Proofs.Session.Elsewhere
import Mathlib.Algebra.Order.BigOperators.Group.Finset

/-! # Calls return

A call returns when no task is left. Actions and listeners may keep each other busy for ever, but
where nobody asks for anything every call returns: the sessions together have only so many moves
left on the input that is there, and between two moves every task causes lighter ones at most. -/

namespace DerivativeLexer

variable {τ π : Type}

namespace Task

/-- Whatever a task causes besides moves weighs less than the task itself. -/
def weight : Task τ → Nat
  | .request _ | .tellOutput _ _ _ => 0
  | .emit _ _ | .close _ | .release _ => 1
  | .drain _ => 2
  | .tellInput _ _ _ | .proceed _ _ | .finish _ _ => 3

def load (tasks : List (Task τ)) : Nat := (tasks.map weight).sum

theorem load_append (a b : List (Task τ)) : load (a ++ b) = load a + load b := by
  rw [load, List.map_append, List.sum_append]
  rfl

theorem load_cons (task : Task τ) (tasks : List (Task τ)) :
    load (task :: tasks) = task.weight + load tasks := by
  rw [load, List.map_cons, List.sum_cons]
  rfl

theorem weight_le (task : Task τ) : task.weight ≤ 3 := by
  cases task <;> simp [weight]

end Task

namespace Network

variable {n n' : Network τ π} {s x y : Nat} {busy : Bool} {run : SoloRun τ π}

theorem load_outputTellings (y : Nat) (items : List τ) :
    Task.load (n.outputTellings y items) = 0 := by
  apply List.sum_eq_zero
  intro w hw
  obtain ⟨task, htask, rfl⟩ := List.mem_map.1 hw
  obtain ⟨k, rfl⟩ := mem_outputTellings htask
  rfl

/-! ### What a task causes -/

/-- `n'` comes from `n` by putting tasks on the agenda, none of which asks for anything. If there
are any, together they weigh less than `w`. -/
def Lighter (w : Nat) (n n' : Network τ π) : Prop :=
  ∃ added, n'.agenda = added ++ n.agenda ∧ (∀ q, .request q ∉ added) ∧
    (added = [] ∨ Task.load added < w)

theorem lighter_of_eq (w : Nat) (h : n'.agenda = n.agenda) : Lighter w n n' :=
  ⟨[], h, fun _ hq => (nomatch hq), .inl rfl⟩

theorem lighter_schedule {w : Nat} (h : n'.agenda = n.agenda) {tasks : List (Task τ)}
    (hnone : ∀ q, .request q ∉ tasks) (hload : Task.load tasks < w) :
    Lighter w n (n'.schedule tasks) :=
  ⟨tasks, congrArg (tasks ++ ·) h, hnone, .inr hload⟩

theorem lighter_single {w : Nat} (h : n'.agenda = n.agenda) {task : Task τ}
    (hrequest : ∀ q, task ≠ .request q) (hweight : task.weight < w) :
    Lighter w n (n'.schedule [task]) :=
  lighter_schedule h (fun q hq => hrequest q (List.mem_singleton.1 hq).symm) hweight

theorem lighter_hear {α : Type} (w : Nat) (h : n'.agenda = n.agenda) {r : Reaction α}
    (hr : ∀ q ∈ r.requests, False) (items : List α) :
    Lighter w n (n'.schedule ((r.hear items).1.map .request)) := by
  have hnone : (r.hear items).1 = [] :=
    List.eq_nil_iff_forall_not_mem.2 fun q hq => hr q (Reaction.mem_hear hq)
  rw [hnone]
  exact lighter_of_eq w h

theorem lighter_wake (y : Nat) : Lighter 3 n (n.wake y) := by
  unfold wake
  cases n.session? y with
  | none => exact lighter_of_eq 3 rfl
  | some σ =>
    simp only
    split_ifs
    · exact lighter_of_eq 3 rfl
    · exact lighter_single rfl (fun q hq => nomatch hq) (Nat.lt_succ_self 2)

theorem lighter_tellInput (hasks : n.Asks fun _ => False) (s k : Nat) (text : List Char) :
    Lighter 3 n (n.tellInput s k text) := by
  unfold tellInput
  cases hu : n.inputs[s]?.bind (·.subscribers[k]?) with
  | none => exact lighter_of_eq 3 rfl
  | some u =>
    cases u with
    | session y => exact lighter_wake y
    | listener r =>
      obtain ⟨i, hi, hr⟩ := Option.bind_eq_some_iff.1 hu
      exact lighter_hear 3 rfl (hasks.subscribers s i hi r (List.mem_of_getElem? hr)) text

theorem lighter_tellOutput (w : Nat) (hasks : n.Asks fun _ => False) (y k : Nat)
    (items : List τ) : Lighter w n (n.tellOutput y k items) := by
  unfold tellOutput
  cases hσ : n.session? y with
  | none => exact lighter_of_eq w rfl
  | some σ =>
    simp only
    cases hr : σ.listeners[k]? with
    | none => exact lighter_of_eq w rfl
    | some r =>
      exact lighter_hear w rfl (hasks.listeners y σ hσ r (List.mem_of_getElem? hr)) items

theorem lighter_outputTellings (h : n'.agenda = n.agenda) (y : Nat) (items : List τ) :
    Lighter 1 n (n'.schedule (n.outputTellings y items)) := by
  refine lighter_schedule h (fun q hq => ?_) ?_
  · obtain ⟨k, hk⟩ := mem_outputTellings hq
    cases hk
  · rw [load_outputTellings]
    exact Nat.one_pos

theorem lighter_emit (y : Nat) (item : τ) : Lighter 1 n (n.emit y item) := by
  unfold emit
  cases n.session? y with
  | none => exact lighter_of_eq 1 rfl
  | some σ =>
    simp only
    split_ifs
    · exact lighter_of_eq 1 rfl
    · exact lighter_outputTellings rfl y [item]

theorem lighter_finish (y : Nat) (status : SessionStatus) : Lighter 3 n (n.finish y status) := by
  unfold finish
  cases n.session? y with
  | none => exact lighter_of_eq 3 rfl
  | some σ =>
    simp only
    split_ifs
    · exact lighter_single rfl (fun q hq => nomatch hq) (Nat.lt_succ_of_lt (Nat.lt_succ_self 1))
    · refine lighter_schedule rfl (fun q hq => ?_) (Nat.lt_succ_self 2)
      rcases List.mem_pair.1 hq with hq | hq
      · cases hq
      · cases hq

theorem drain_of_settled (h : n.Hosts s x busy run) (hsettled : run.Settled n.lexer) :
    n.drain x = n.schedule [.release x] := by
  obtain ⟨listeners, hσ⟩ := h.session
  have hsource := h.source
  simp only [drain, hσ, hsource, Option.getD_some, Bool.false_eq_true, if_false]
  split_ifs with hstopped
  · rfl
  · have hmove := hsettled (by rwa [Bool.not_eq_true', Bool.not_eq_false] at hstopped)
    rw [hmove]

theorem lighter_drain (hasks : n.Asks fun _ => False) (y : Nat) :
    ∃ w, Lighter w n (n.drain y) := by
  have hone : ∀ {n' : Network τ π} {task : Task τ}, n'.agenda = n.agenda →
      task.owner? = some y → Lighter 4 n (n'.schedule [task]) := by
    intro n' task h howner
    refine lighter_single h (fun q hq => ?_) (Nat.lt_succ_of_le task.weight_le)
    rw [hq] at howner
    cases howner
  have hfired : ∀ {n' : Network τ π} {firing : Firing τ π} {last : Task τ},
      n'.agenda = n.agenda → n.lexer.rules.Fires firing → last.owner? = some y →
      ∃ w, Lighter w n (n'.schedule (firing.effects.map (effectTask y) ++ [last])) := by
    intro n' firing last h hfires howner
    refine ⟨_, lighter_schedule h (fun q hq => ?_) (Nat.lt_succ_self _)⟩
    rcases List.mem_append.1 hq with hq | hq
    · exact hasks.of_effects hfires y hq
    · rw [← List.mem_singleton.1 hq] at howner
      cases howner
  unfold drain
  cases n.session? y with
  | none => exact ⟨0, lighter_of_eq 0 rfl⟩
  | some σ =>
    simp only
    split_ifs
    · exact ⟨4, hone rfl rfl⟩
    · exact ⟨4, hone rfl rfl⟩
    · cases hmove : σ.engine.move n.lexer.rules n.lexer.config
          ⟨(n.source? σ.input).getD .fresh, σ.reader⟩ with
      | rest => exact ⟨4, hone rfl rfl⟩
      | read engine feed => exact ⟨4, hone rfl rfl⟩
      | fire firing engine replays =>
        exact hfired rfl (Engine.fires_move (by rw [hmove]; rfl)) rfl
      | last firing engine => exact hfired rfl (Engine.fires_move (by rw [hmove]; rfl)) rfl
      | fail error feed => exact ⟨4, hone rfl rfl⟩

theorem lighter_perform (hasks : n.Asks fun _ => False) {task : Task τ}
    (hrequest : ∀ q, task ≠ .request q) (hdrain : ∀ y, task ≠ .drain y) :
    Lighter task.weight n (n.perform task) := by
  cases task with
  | request q => exact (hrequest q rfl).elim
  | tellInput s k text => exact lighter_tellInput hasks s k text
  | tellOutput y k items => exact lighter_tellOutput 0 hasks y k items
  | emit y item => exact lighter_emit y item
  | close y => exact lighter_outputTellings rfl y []
  | drain y => exact (hdrain y rfl).elim
  | proceed y replays =>
    exact lighter_single rfl (fun q hq => nomatch hq) (Nat.lt_succ_self 2)
  | finish y status => exact lighter_finish y status
  | release y => exact lighter_of_eq 1 rfl

/-! ### Quiet networks -/

/-- Nobody asks for anything, and every session is somewhere on its way through its input. -/
structure Quiet (n : Network τ π) : Prop where
  asks : n.Asks fun _ => False
  requests : ∀ q, .request q ∉ n.agenda
  sessions : ∀ y σ, n.session? y = some σ → ∃ busy run, n.Attends σ.input y busy run ∧
    (n.ahead y run).Placed n.lexer

/-- Every session `y` will have settled after `K y` more moves. -/
def Within (n : Network τ π) (K : Nat → Nat) : Prop :=
  ∀ y σ, n.session? y = some σ → ∃ busy run, n.Attends σ.input y busy run ∧
    ((n.ahead y run).run n.lexer (K y)).Settled n.lexer

theorem Quiet.exists_within (h : n.Quiet) : ∃ K, n.Within K := by
  have hbound : ∀ y, ∃ k, ∀ σ, n.session? y = some σ → ∃ busy run,
      n.Attends σ.input y busy run ∧ ((n.ahead y run).run n.lexer k).Settled n.lexer := by
    intro y
    cases hσ : n.session? y with
    | none => exact ⟨0, fun σ h => nomatch h⟩
    | some σ =>
      obtain ⟨busy, run, hattends, hplaced⟩ := h.sessions y σ hσ
      obtain ⟨k, hk⟩ := hplaced.settles
      refine ⟨k, fun σ' hσ' => ?_⟩
      obtain rfl := Option.some.inj hσ'
      exact ⟨busy, run, hattends, hk⟩
  choose K hK using hbound
  exact ⟨K, hK⟩

theorem Quiet.lighter_perform (h : n.Quiet) {task : Task τ} {rest : List (Task τ)}
    (hagenda : n.agenda = task :: rest) :
    ∃ w, Lighter w { n with agenda := rest } n.step ∧
      ((∀ y, task ≠ .drain y) → w = task.weight) := by
  have hasks : { n with agenda := rest }.Asks fun _ => False := h.asks.of_wiring_eq rfl
  have hstep : n.step = { n with agenda := rest }.perform task := by
    rw [step, hagenda]
  rw [hstep]
  by_cases hdrain : ∃ y, task = .drain y
  · obtain ⟨y, rfl⟩ := hdrain
    obtain ⟨w, hw⟩ := lighter_drain hasks y
    exact ⟨w, hw, fun hne => (hne y rfl).elim⟩
  · have hne : ∀ y, task ≠ .drain y := fun y hy => hdrain ⟨y, hy⟩
    refine ⟨task.weight, Network.lighter_perform hasks (fun q hq => h.requests q ?_) hne,
      fun _ => rfl⟩
    rw [hagenda, hq]
    exact List.mem_cons_self

theorem Quiet.step (h : n.Quiet) : n.step.Quiet := by
  cases hagenda : n.agenda with
  | nil =>
    have hstep : n.step = n := by
      rw [Network.step, hagenda]
    rw [hstep]
    exact h
  | cons task rest =>
    refine ⟨h.asks.of_wiring_eq wiring_step, fun q hq => ?_, fun y σ hσ => ?_⟩
    · obtain ⟨w, ⟨added, hadded, hnone, -⟩, -⟩ := h.lighter_perform hagenda
      rw [hadded] at hq
      refine h.requests q ?_
      rw [hagenda]
      exact List.mem_cons_of_mem task ((List.mem_append.1 hq).resolve_left (hnone q))
    · obtain ⟨σ₀, hσ₀, hsame⟩ := session?_wiring wiring_step hσ
      obtain ⟨busy, run, hattends, hplaced⟩ := h.sessions y σ₀ hσ₀
      obtain ⟨k, busy', run', hattends', hahead⟩ := hattends.step
      have hlexer : n.step.lexer = n.lexer := congrArg Wiring.lexer wiring_step
      have hinput : σ₀.input = σ.input := congrArg Prod.fst hsame
      rw [hinput] at hattends'
      refine ⟨busy', run', hattends', ?_⟩
      rw [hahead, hlexer]
      exact hplaced.run k

theorem Quiet.settle (h : n.Quiet) (fuel : Nat) : (n.settle fuel).Quiet := by
  induction fuel generalizing n with
  | zero => exact h
  | succ fuel ih =>
    rw [Network.settle]
    split_ifs
    · exact h
    · exact ih h.step

/-! ### The moves that are left -/

theorem Within.step {K K' : Nat → Nat} (h : n.Within K)
    (hadvances : ∀ y s busy run, n.Attends s y busy run →
      ∃ k, Advances n n.step s y run k ∧ K y ≤ k + K' y) : n.step.Within K' := by
  intro y σ hσ
  obtain ⟨σ₀, hσ₀, hsame⟩ := session?_wiring wiring_step hσ
  obtain ⟨busy, run, hattends, hsettled⟩ := h y σ₀ hσ₀
  obtain ⟨k, ⟨busy', run', hattends', hahead⟩, hle⟩ := hadvances y _ busy run hattends
  have hlexer : n.step.lexer = n.lexer := congrArg Wiring.lexer wiring_step
  have hinput : σ₀.input = σ.input := congrArg Prod.fst hsame
  rw [hinput] at hattends'
  refine ⟨busy', run', hattends', ?_⟩
  obtain ⟨later, hlater⟩ := Nat.exists_eq_add_of_le hle
  rw [hahead, hlexer, ← SoloRun.run_add, hlater, SoloRun.run_add, SoloRun.run_of_settled hsettled]
  exact hsettled

/-- A move of a session that has not settled leaves one move less, and any other task leaves the
moves but is gone, and what it causes weighs less. -/
theorem Quiet.step_lightens (h : n.Quiet) {K : Nat → Nat} (hwithin : n.Within K)
    {task : Task τ} {rest : List (Task τ)} (hagenda : n.agenda = task :: rest) :
    (∃ y < n.sessions.size, 0 < K y ∧ n.step.Within (Function.update K y (K y - 1))) ∨
      (n.step.Within K ∧ Lighter task.weight { n with agenda := rest } n.step) := by
  have hsame : n.step.Within K := hwithin.step fun y s busy run hattends => by
    obtain ⟨k, hk⟩ := hattends.step
    exact ⟨k, hk, Nat.le_add_left _ _⟩
  have hstep : n.step = { n with agenda := rest }.perform task := by
    rw [Network.step, hagenda]
  by_cases hdrain : ∃ y, task = .drain y
  · obtain ⟨y, rfl⟩ := hdrain
    cases hσ : n.session? y with
    | none =>
      have hidle : n.step = { n with agenda := rest } := by
        have hσ' : { n with agenda := rest }.session? y = none := hσ
        rw [hstep, perform, drain, hσ']
      exact .inr ⟨hsame, lighter_of_eq _ (by rw [hidle])⟩
    | some σ =>
      obtain ⟨busy, run, hattends, hsettled⟩ := hwithin y σ hσ
      by_cases hrest : run.Settled n.lexer
      · have hhosts : { n with agenda := rest }.Hosts σ.input y busy run :=
          ⟨hattends.hosts.source, hattends.hosts.session⟩
        refine .inr ⟨hsame, ?_⟩
        obtain ⟨rfl, -, -⟩ := hattends.of_drain hagenda
        rw [hstep, perform, drain_of_settled hhosts hrest]
        refine lighter_single rfl (fun q hq => ?_) (Nat.lt_succ_self 1)
        cases hq
      · obtain ⟨-, -, hahead⟩ := hattends.of_drain hagenda
        have hpos : 0 < K y := by
          apply Nat.pos_of_ne_zero
          intro hzero
          rw [hahead, hzero] at hsettled
          exact hrest hsettled
        refine .inl ⟨y, lt_size_of_hosts hattends.hosts, hpos, ?_⟩
        refine hwithin.step fun z s busy' run' hattends' => ?_
        by_cases hz : z = y
        · subst hz
          refine ⟨1, hattends'.step_drain hagenda, ?_⟩
          rw [Function.update_self]
          omega
        · obtain ⟨k, hk⟩ := hattends'.step
          refine ⟨k, hk, ?_⟩
          rw [Function.update_of_ne hz]
          exact Nat.le_add_left _ _
  · obtain ⟨w, hlighter, hw⟩ := h.lighter_perform hagenda
    rw [hw fun y hy => hdrain ⟨y, hy⟩] at hlighter
    exact .inr ⟨hsame, hlighter⟩

def movesLeft (N : Nat) (K : Nat → Nat) : Nat := ∑ y ∈ Finset.range N, K y

theorem movesLeft_update {N : Nat} {K : Nat → Nat} (hy : y < N) (hpos : 0 < K y) :
    movesLeft N (Function.update K y (K y - 1)) < movesLeft N K := by
  refine Finset.sum_lt_sum (fun z _ => ?_) ⟨y, Finset.mem_range.2 hy, ?_⟩
  · by_cases hz : z = y
    · subst hz
      rw [Function.update_self]
      exact Nat.sub_le _ _
    · rw [Function.update_of_ne hz]
  · rw [Function.update_self]
    exact Nat.sub_lt hpos Nat.one_pos

/-- Where nobody asks for anything, the tasks come to an end: either there are fewer moves left, or
what is on the agenda weighs less, or there are fewer tasks. -/
theorem Quiet.settles_within {n : Network τ π} (h : n.Quiet) {K : Nat → Nat}
    (hwithin : n.Within K) : ∃ fuel, (n.settle fuel).agenda = [] := by
  cases hagenda : n.agenda with
  | nil => exact ⟨0, hagenda⟩
  | cons task rest =>
    have hsize : n.step.sessions.size = n.sessions.size := size_of_wiring_eq wiring_step
    have hnext : ∀ fuel, (n.step.settle fuel).agenda = [] →
        (n.settle (fuel + 1)).agenda = [] := by
      intro fuel hfuel
      rw [Network.settle, hagenda]
      exact hfuel
    rcases h.step_lightens hwithin hagenda with
      ⟨y, hy, hpos, hwithin'⟩ | ⟨hwithin', added, hadded, -, hlighter⟩
    · have hless := movesLeft_update hy hpos
      obtain ⟨fuel, hfuel⟩ := h.step.settles_within hwithin'
      exact ⟨fuel + 1, hnext fuel hfuel⟩
    · have hload : Task.load n.step.agenda = Task.load added + Task.load rest := by
        rw [hadded, Task.load_append]
      have hlength : n.step.agenda.length = added.length + rest.length := by
        rw [hadded, List.length_append]
      obtain ⟨fuel, hfuel⟩ := h.step.settles_within hwithin'
      exact ⟨fuel + 1, hnext fuel hfuel⟩
termination_by (movesLeft n.sessions.size K, Task.load n.agenda, n.agenda.length)
decreasing_by
  · rw [hsize]
    exact .left _ _ hless
  · rw [hsize, hload, hlength, hagenda, Task.load_cons, List.length_cons]
    apply Prod.Lex.right
    rcases hlighter with rfl | hlt
    · rcases Nat.eq_zero_or_pos task.weight with hzero | hpos
      · rw [hzero]
        exact .right _ (Nat.lt_succ_of_le (Nat.le_of_eq (Nat.zero_add _)))
      · exact .left _ _ (Nat.add_lt_add_right hpos _)
    · exact .left _ _ (Nat.add_lt_add_right hlt _)

theorem Quiet.returns (h : n.Quiet) : ∃ fuel, (n.settle fuel).agenda = [] := by
  obtain ⟨K, hwithin⟩ := h.exists_within
  exact h.settles_within hwithin

end Network

end DerivativeLexer
