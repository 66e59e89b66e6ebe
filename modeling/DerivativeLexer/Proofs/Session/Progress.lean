import DerivativeLexer.Proofs.Lexer.Growth
import DerivativeLexer.Proofs.Session.Apart

/-! # How far a session has come

While a session that is apart with its source works, its tasks lie scattered on the agenda
among those of others. Taken together they say what the session will have come to when they are
done, and that is a run of the engine on its own: a task of somebody else does not change it, a
task of the session does not either, and a move of the engine is one step of the run. The agenda
is empty only when the run has settled. -/

namespace DerivativeLexer

variable {τ π : Type}

namespace Task

def own (x : Nat) (tasks : List (Task τ)) : List (Task τ) :=
  tasks.filter fun task => task.owner? == some x

/-- A run after a task of its session, but that moves are not made. -/
def carry (run : SoloRun τ π) : Task τ → SoloRun τ π
  | .emit _ item => { run with output := run.output.push [item] }
  | .close _ => { run with output := run.output.close }
  | .proceed _ replays => { run with status := run.status.afterFire replays }
  | .finish _ status => run.stop status
  | .request _ | .tellInput _ _ _ | .tellOutput _ _ _ | .drain _ | .release _ => run

/-- The tasks that a session may have on the agenda: none if it is not busy, and otherwise some
for its output and then one that decides how it goes on. -/
inductive Underway (x : Nat) : Bool → List (Task τ) → Prop
  | idle : Underway x false []
  | drain : Underway x true [.drain x]
  | proceed (replays : Bool) : Underway x true [.proceed x replays]
  | finish (status : SessionStatus) : Underway x true [.finish x status]
  | release : Underway x true [.release x]
  | emit (item : τ) {own : List (Task τ)} (later : Underway x true own) :
      Underway x true (.emit x item :: own)
  | close {own : List (Task τ)} (later : Underway x true own) : Underway x true (.close x :: own)

def Resumes : Task τ → Prop
  | .drain _ | .proceed _ _ => True
  | _ => False

section Own

variable {s x : Nat} {task : Task τ} {tasks : List (Task τ)}

theorem own_append (a b : List (Task τ)) : own x (a ++ b) = own x a ++ own x b :=
  List.filter_append ..

theorem own_cons (h : task.owner? = some x) : own x (task :: tasks) = task :: own x tasks := by
  unfold own
  rw [List.filter_cons_of_pos]
  rw [h, beq_self_eq_true]

theorem own_cons_of_ne (h : task.owner? ≠ some x) : own x (task :: tasks) = own x tasks := by
  unfold own
  rw [List.filter_cons_of_neg]
  rw [beq_iff_eq]
  exact h

theorem own_of_foreign (h : ∀ task ∈ tasks, task.Foreign s x) : own x tasks = [] := by
  unfold own
  rw [List.filter_eq_nil_iff]
  intro task htask
  rw [beq_iff_eq]
  exact (h task htask).owner_ne

theorem underway_effects {last : List (Task τ)} (h : Underway x true last)
    (effects : List (Effect τ)) :
    Underway x true (own x (effects.map (Network.effectTask x)) ++ last) := by
  induction effects with
  | nil => exact h
  | cons effect rest ih =>
    cases effect with
    | emit item =>
      rw [List.map_cons, Network.effectTask, own_cons rfl]
      exact .emit item ih
    | close =>
      rw [List.map_cons, Network.effectTask, own_cons rfl]
      exact .close ih
    | request r => exact ih

theorem foldl_carry_effects (run : SoloRun τ π) (effects : List (Effect τ)) :
    (own x (effects.map (Network.effectTask x))).foldl carry run =
      { run with output := SoloRun.applyEffects run.output effects } := by
  induction effects generalizing run with
  | nil => rfl
  | cons effect rest ih =>
    cases effect with
    | emit item =>
      rw [List.map_cons, Network.effectTask, own_cons rfl, List.foldl_cons, ih]
      rfl
    | close =>
      rw [List.map_cons, Network.effectTask, own_cons rfl, List.foldl_cons, ih]
      rfl
    | request r =>
      exact ih run

end Own

end Task

namespace Network

/-- What a run will have come to when the tasks of its session on the agenda are done. -/
def ahead (n : Network τ π) (x : Nat) (run : SoloRun τ π) : SoloRun τ π :=
  (Task.own x n.agenda).foldl Task.carry run

def Pending (n : Network τ π) (s x : Nat) : Prop :=
  ∃ k text, .tellInput s k text ∈ n.agenda ∧ n.Notifies s k x

/-- A session on a source that it is apart with, in the middle of whatever goes on. Unless it will
look at its input again, it has come to rest or stopped. -/
structure Attends (n : Network τ π) (s x : Nat) (busy : Bool) (run : SoloRun τ π) : Prop where
  apart : n.Apart s x
  spares : ∀ q, .request q ∈ n.agenda → q.Spares s x
  hosts : n.Hosts s x busy run
  underway : Task.Underway x busy (Task.own x n.agenda)
  awake : (∃ task ∈ Task.own x n.agenda, task.Resumes) ∨ (busy = false ∧ n.Pending s x) ∨
    (n.ahead x run).Settled n.lexer

/-- `n'` comes from `n` by a task: the run of the session is then `run`, and `own` are the tasks of
the session that the task has put on the agenda. -/
structure Becomes (n n' : Network τ π) (s x : Nat) (busy : Bool) (run : SoloRun τ π)
    (own : List (Task τ)) : Prop where
  hosts : n'.Hosts s x busy run
  agenda : ∃ added, n'.agenda = added ++ n.agenda ∧
    (∀ q, .request q ∈ added → q.Spares s x) ∧ Task.own x added = own

/-- `n'` comes after `n`: the session is still attended to, and what lies ahead of it is what lay
ahead before, but `k` steps later. -/
def Advances (n n' : Network τ π) (s x : Nat) (run : SoloRun τ π) (k : Nat) : Prop :=
  ∃ busy' run', n'.Attends s x busy' run' ∧ n'.ahead x run' = (n.ahead x run).run n.lexer k

section Tasks

variable {n n' : Network τ π} {s x : Nat} {busy busy' : Bool} {run run' : SoloRun τ π}

/-! ### Tasks of the session -/

theorem Hosts.modifySession (h : n.Hosts s x busy run) (f : Session τ π → Session τ π)
    (hsource : run'.feed.source = run.feed.source)
    (hf : ∀ listeners,
      f ⟨s, run.engine, run.feed.reader, run.output, listeners, run.status, false, busy⟩ =
        ⟨s, run'.engine, run'.feed.reader, run'.output, listeners, run'.status, false, busy'⟩) :
    (n.modifySession x f).Hosts s x busy' run' where
  source := by
    rw [hsource]
    exact h.source
  session := by
    obtain ⟨listeners, hσ⟩ := h.session
    rw [session?_modifySession_self, hσ, Option.map_some, hf]
    exact ⟨listeners, rfl⟩

theorem Hosts.modifySource (h : n.Hosts s x busy run) (f : Source Char → Source Char) :
    (n.modifySource s f).Hosts s x busy
      { run with feed := ⟨f run.feed.source, run.feed.reader⟩ } where
  source := by
    rw [source?_modifySource_self, h.source]
    rfl
  session := h.session

theorem Leaves.becomes (hleaves : Leaves s x n n') (h : n.Hosts s x busy run) :
    Becomes n n' s x busy run [] := by
  obtain ⟨added, hagenda, hforeign⟩ := hleaves.agenda
  refine ⟨hleaves.hosts h, added, hagenda, fun q hq => ?_, Task.own_of_foreign hforeign⟩
  exact (hforeign _ hq).spares q rfl

theorem Hosts.becomes (h : n'.Hosts s x busy run) (hagenda : n'.agenda = n.agenda)
    (own : List (Task τ)) (howner : ∀ task ∈ own, task.owner? = some x) :
    Becomes n (n'.schedule own) s x busy run own := by
  refine ⟨⟨h.source, h.session⟩, own, congrArg (own ++ ·) hagenda, fun q hq => ?_, ?_⟩
  · cases howner _ hq
  · unfold Task.own
    rw [List.filter_eq_self]
    intro task htask
    rw [howner task htask, beq_self_eq_true]

theorem Hosts.becomes_foreign (h : n'.Hosts s x busy run) (hagenda : n'.agenda = n.agenda)
    {tasks : List (Task τ)} (hforeign : ∀ task ∈ tasks, task.Foreign s x) :
    Becomes n (n'.schedule tasks) s x busy run [] := by
  refine ⟨⟨h.source, h.session⟩, tasks, congrArg (tasks ++ ·) hagenda, fun q hq => ?_, ?_⟩
  · exact (hforeign _ hq).spares q rfl
  · exact Task.own_of_foreign hforeign

theorem Hosts.becomes_one (h : n'.Hosts s x busy run) (hagenda : n'.agenda = n.agenda)
    {task : Task τ} (howner : task.owner? = some x) :
    Becomes n (n'.schedule [task]) s x busy run [task] := by
  refine h.becomes hagenda [task] fun task' htask => ?_
  rw [List.mem_singleton.1 htask]
  exact howner

theorem Hosts.becomes_effects (h : n'.Hosts s x busy run) (hagenda : n'.agenda = n.agenda)
    (hapart : n.Apart s x) {firing : Firing τ π} (hfires : n.lexer.rules.Fires firing)
    {last : Task τ} (hlast : last.owner? = some x) :
    Becomes n (n'.schedule (firing.effects.map (effectTask x) ++ [last])) s x busy run
      (Task.own x (firing.effects.map (effectTask x)) ++ [last]) := by
  refine ⟨⟨h.source, h.session⟩, _, congrArg (_ ++ ·) hagenda, fun q hq => ?_, ?_⟩
  · rcases List.mem_append.1 hq with hq | hq
    · exact hapart.asks.of_effects hfires x hq
    · rw [← List.mem_singleton.1 hq] at hlast
      cases hlast
  · rw [Task.own_append, Task.own_cons hlast]
    rfl

theorem becomes_emit (h : n.Hosts s x busy run) (item : τ) :
    Becomes n (n.emit x item) s x busy (Task.carry run (.emit x item)) [] := by
  obtain ⟨listeners, hσ⟩ := h.session
  simp only [emit, hσ]
  split_ifs with hclosed
  · have hcarry : Task.carry run (.emit x item) = run := by
      rw [Task.carry, Source.push_closed hclosed]
    rw [hcarry]
    exact (Leaves.refl n).becomes h
  · have hhosts : (n.modifySession x fun σ => { σ with output := σ.output.push [item] }).Hosts s x
        busy (Task.carry run (.emit x item)) := h.modifySession _ rfl fun _ => rfl
    exact hhosts.becomes_foreign (n := n) rfl (foreign_outputTellings x [item])

theorem becomes_close (h : n.Hosts s x busy run) :
    Becomes n (n.close x) s x busy (Task.carry run (.close x)) [] := by
  have hhosts : (n.modifySession x fun σ => { σ with output := σ.output.close }).Hosts s x busy
      (Task.carry run (.close x)) := h.modifySession _ rfl fun _ => rfl
  exact hhosts.becomes_foreign (n := n) rfl (foreign_outputTellings x [])

theorem becomes_proceed (h : n.Hosts s x busy run) (replays : Bool) :
    Becomes n (n.proceed x replays) s x busy (Task.carry run (.proceed x replays)) [.drain x] := by
  have hhosts : (n.modifySession x fun σ => { σ with status := σ.status.afterFire replays }).Hosts
      s x busy (Task.carry run (.proceed x replays)) := h.modifySession _ rfl fun _ => rfl
  exact hhosts.becomes_one (n := n) rfl rfl

theorem becomes_finish (h : n.Hosts s x busy run) (status : SessionStatus) :
    ∃ run' own, Becomes n (n.finish x status) s x busy run' own ∧
      (own = [.release x] ∨ own = [.close x, .release x]) ∧
      own.foldl Task.carry run' = Task.carry run (.finish x status) := by
  obtain ⟨listeners, hσ⟩ := h.session
  have hhosts : (n.modifySession x fun σ =>
      { σ with status := status, engine := { σ.engine with bookmark := none } }).Hosts s x busy
        { run with status := status, engine := { run.engine with bookmark := none } } :=
    h.modifySession _ rfl fun _ => rfl
  simp only [finish, hσ]
  split_ifs with hclosed
  · have hclose : run.output.close = run.output := by
      rw [Source.close_eq_grow, Source.grow_of_closed hclosed]
    refine ⟨_, _, hhosts.becomes (n := n) rfl [.release x] (by simp [Task.owner?]), .inl rfl, ?_⟩
    simp only [List.foldl_cons, List.foldl_nil, Task.carry, SoloRun.stop, hclose]
  · exact ⟨_, _, hhosts.becomes (n := n) rfl [.close x, .release x] (by simp [Task.owner?]),
      .inr rfl, rfl⟩

theorem becomes_release (h : n.Hosts s x busy run) :
    Becomes n (n.release x) s x false run [] := by
  have hhosts : (n.release x).Hosts s x false run := h.modifySession _ rfl fun _ => rfl
  exact ⟨hhosts, [], rfl, fun _ hq => (nomatch hq), rfl⟩

theorem becomes_wake (h : n.Hosts s x busy run) :
    (Becomes n (n.wake x) s x busy run [] ∧ (busy = true ∨ run.status.isLive = false)) ∨
      (Becomes n (n.wake x) s x true run [.drain x] ∧ busy = false) := by
  obtain ⟨listeners, hσ⟩ := h.session
  simp only [wake, hσ]
  split_ifs with hidle
  · rw [Bool.or_eq_true, Bool.not_eq_true'] at hidle
    exact .inl ⟨(Leaves.refl n).becomes h, hidle⟩
  · rw [Bool.or_eq_true, not_or] at hidle
    have hhosts : (n.modifySession x fun σ => { σ with busy := true }).Hosts s x true run :=
      h.modifySession _ rfl fun _ => rfl
    exact .inr ⟨hhosts.becomes_one (n := n) rfl rfl, Bool.eq_false_iff.2 hidle.1⟩

/-- The next move of a session. It may only put its effects, and then one task that says how the
session goes on, on the agenda; together they amount to one step of the run. -/
theorem becomes_drain (hapart : n.Apart s x) (h : n.Hosts s x true run) :
    ∃ run' own, Becomes n (n.drain x) s x true run' own ∧ Task.Underway x true own ∧
      own.foldl Task.carry run' = run.run n.lexer 1 ∧
      ((∃ task ∈ own, task.Resumes) ∨ (run.run n.lexer 1).Settled n.lexer) := by
  obtain ⟨listeners, hσ⟩ := h.session
  have hsource := h.source
  simp only [drain, hσ, hsource, Option.getD_some, Bool.false_eq_true, if_false]
  split_ifs with hstopped
  · rw [Bool.not_eq_true'] at hstopped
    rw [SoloRun.run_of_stopped hstopped]
    exact ⟨run, _, h.becomes_one rfl rfl, .release, rfl,
      .inr (SoloRun.settled_of_stopped hstopped)⟩
  · have hlive : run.status.isLive = true := by
      rwa [Bool.not_eq_true', Bool.not_eq_false] at hstopped
    rw [SoloRun.run_succ hlive, SoloRun.run, SoloRun.step]
    cases hmove : run.engine.move n.lexer.rules n.lexer.config run.feed with
    | rest =>
      exact ⟨run, _, h.becomes_one rfl rfl, .release, rfl, .inr fun _ => hmove⟩
    | read engine feed =>
      dsimp only
      refine ⟨{ run with
        engine := engine, feed := feed, status := run.status.afterRead engine.replaying }, _,
        Hosts.becomes_one ?_ ?_ ?_, .drain, rfl, .inl ?_⟩
      · exact (h.modifySource fun _ => feed.source).modifySession _ rfl fun _ => rfl
      · rfl
      · rfl
      · exact ⟨_, List.mem_singleton_self _, trivial⟩
    | fire firing engine replays =>
      dsimp only
      have hfires : n.lexer.rules.Fires firing := Engine.fires_move (by rw [hmove]; rfl)
      refine ⟨{ run with engine := engine }, _, Hosts.becomes_effects ?_ ?_ hapart hfires ?_,
        Task.underway_effects (.proceed replays) _, ?_, .inl ?_⟩
      · exact h.modifySession _ rfl fun _ => rfl
      · rfl
      · rfl
      · rw [List.foldl_append, Task.foldl_carry_effects]
        rfl
      · exact ⟨_, List.mem_append_right _ (List.mem_singleton_self _), trivial⟩
    | last firing engine =>
      dsimp only
      have hfires : n.lexer.rules.Fires firing := Engine.fires_move (by rw [hmove]; rfl)
      refine ⟨{ run with engine := engine }, _, Hosts.becomes_effects ?_ ?_ hapart hfires ?_,
        Task.underway_effects (.finish .terminated) _, ?_, .inr ?_⟩
      · exact h.modifySession _ rfl fun _ => rfl
      · rfl
      · rfl
      · rw [List.foldl_append, Task.foldl_carry_effects]
        rfl
      · exact SoloRun.settled_of_stopped rfl
    | fail error feed =>
      dsimp only
      refine ⟨{ run with feed := feed }, _, Hosts.becomes_one ?_ ?_ ?_, .finish _, rfl, .inr ?_⟩
      · exact (h.modifySource fun _ => feed.source).modifySession _ rfl fun _ => rfl
      · rfl
      · rfl
      · exact SoloRun.settled_of_stopped rfl

/-! ### One task -/

theorem Attends.of_becomes {task : Task τ} {rest own later : List (Task τ)} {k : Nat}
    (h : n.Attends s x busy run) (hagenda : n.agenda = task :: rest)
    (hlater : Task.own x rest = later)
    (hbecomes : Becomes { n with agenda := rest } ({ n with agenda := rest }.perform task) s x
      busy' run' own)
    (hunderway : Task.Underway x busy' (own ++ later))
    (hfold : (own ++ later).foldl Task.carry run' = (n.ahead x run).run n.lexer k)
    (hawake : (∃ task ∈ own ++ later, task.Resumes) ∨ (busy' = false ∧ n.step.Pending s x) ∨
      ((n.ahead x run).run n.lexer k).Settled n.lexer) :
    Advances n n.step s x run k := by
  obtain ⟨hhosts, added, hadded, hspares, rfl⟩ := hbecomes
  have hstep : n.step = { n with agenda := rest }.perform task := by
    rw [step, hagenda]
  rw [← hstep] at hhosts hadded
  have hown : Task.own x n.step.agenda = Task.own x added ++ later := by
    rw [hadded, Task.own_append, hlater]
  have hahead : n.step.ahead x run' = (n.ahead x run).run n.lexer k := by
    rw [ahead, hown, hfold]
  have hlexer : n.step.lexer = n.lexer := congrArg Wiring.lexer wiring_step
  refine ⟨busy', run', ⟨h.apart.of_wiring_eq wiring_step, fun q hq => ?_, hhosts, ?_, ?_⟩,
    hahead⟩
  · rw [hadded] at hq
    rcases List.mem_append.1 hq with hq | hq
    · exact hspares q hq
    · refine h.spares q ?_
      rw [hagenda]
      exact List.mem_cons_of_mem task hq
  · rw [hown]
    exact hunderway
  · rw [hown, hahead, hlexer]
    exact hawake

/-- A session that is about to move has nothing else to do before. -/
theorem Attends.of_drain {rest : List (Task τ)} (h : n.Attends s x busy run)
    (hagenda : n.agenda = .drain x :: rest) :
    busy = true ∧ Task.own x rest = [] ∧ n.ahead x run = run := by
  have hown : Task.own x n.agenda = .drain x :: Task.own x rest := by
    rw [hagenda, Task.own_cons rfl]
  have hunderway := h.underway
  rw [ahead, hown]
  rw [hown] at hunderway
  generalize Task.own x rest = later at hunderway
  cases hunderway with
  | drain => exact ⟨rfl, rfl, rfl⟩

/-- A move is one step of what lies ahead. -/
theorem Attends.step_drain {rest : List (Task τ)} (h : n.Attends s x busy run)
    (hagenda : n.agenda = .drain x :: rest) : Advances n n.step s x run 1 := by
  have hapart : { n with agenda := rest }.Apart s x := h.apart.of_wiring_eq rfl
  have hhosts : { n with agenda := rest }.Hosts s x busy run := ⟨h.hosts.source, h.hosts.session⟩
  obtain ⟨rfl, hlater, hahead⟩ := h.of_drain hagenda
  obtain ⟨run', own, hbecomes, hunderway, hfold, hawake⟩ := becomes_drain hapart hhosts
  refine h.of_becomes hagenda hlater hbecomes ?_ ?_ ?_
  · rw [List.append_nil]
    exact hunderway
  · rw [List.append_nil, hfold, hahead]
  · rw [List.append_nil, hahead]
    exact hawake.imp_right .inr

/-- Every other task of the session changes nothing about what lies ahead. -/
theorem Attends.step_own {task : Task τ} {rest : List (Task τ)} (h : n.Attends s x busy run)
    (hagenda : n.agenda = task :: rest) (howner : task.owner? = some x)
    (hdrain : task ≠ .drain x) : Advances n n.step s x run 0 := by
  have hhosts : { n with agenda := rest }.Hosts s x busy run := ⟨h.hosts.source, h.hosts.session⟩
  obtain ⟨later, hlater⟩ : ∃ later, Task.own x rest = later := ⟨_, rfl⟩
  have hown : Task.own x n.agenda = task :: later := by
    rw [hagenda, Task.own_cons howner, hlater]
  have hahead : later.foldl Task.carry (Task.carry run task) = (n.ahead x run).run n.lexer 0 := by
    rw [SoloRun.run, ahead, hown, List.foldl_cons]
  have hunderway := h.underway
  rw [hown] at hunderway
  have hawake : task.Resumes ∨ (∃ task ∈ later, task.Resumes) ∨
      ((n.ahead x run).run n.lexer 0).Settled n.lexer := by
    rcases h.awake with ⟨other, hmem, hresumes⟩ | ⟨hidle, -⟩ | hsettled
    · rw [hown] at hmem
      rcases List.mem_cons.1 hmem with rfl | hmem
      · exact .inl hresumes
      · exact .inr (.inl ⟨other, hmem, hresumes⟩)
    · rw [hidle] at hunderway
      cases hunderway
    · exact .inr (.inr hsettled)
  cases hunderway with
  | drain => exact (hdrain rfl).elim
  | proceed replays =>
    exact h.of_becomes hagenda hlater (becomes_proceed hhosts replays) .drain hahead
      (.inl ⟨_, List.mem_singleton_self _, trivial⟩)
  | finish status =>
    obtain ⟨run', own, hbecomes, hown', hfold⟩ := becomes_finish hhosts status
    refine h.of_becomes hagenda hlater hbecomes ?_ ?_ ?_
    · rcases hown' with rfl | rfl
      · exact .release
      · exact .close .release
    · rw [List.append_nil, hfold]
      exact hahead
    · rcases hawake with hresumes | ⟨_, hmem, -⟩ | hsettled
      · exact False.elim hresumes
      · cases hmem
      · exact .inr (.inr hsettled)
  | release =>
    refine h.of_becomes hagenda hlater (becomes_release hhosts) .idle hahead ?_
    rcases hawake with hresumes | ⟨_, hmem, -⟩ | hsettled
    · exact False.elim hresumes
    · cases hmem
    · exact .inr (.inr hsettled)
  | emit item hunderway =>
    refine h.of_becomes hagenda hlater (becomes_emit hhosts item) hunderway hahead ?_
    rcases hawake with hresumes | hawake
    · exact False.elim hresumes
    · exact hawake.imp_right .inr
  | close hunderway =>
    refine h.of_becomes hagenda hlater (becomes_close hhosts) hunderway hahead ?_
    rcases hawake with hresumes | hawake
    · exact False.elim hresumes
    · exact hawake.imp_right .inr

/-- A task of somebody else changes nothing about what lies ahead, and if it tells the session
about its source, the session looks. -/
theorem Attends.step_foreign {task : Task τ} {rest : List (Task τ)} (h : n.Attends s x busy run)
    (hagenda : n.agenda = task :: rest) (hforeign : task.Foreign s x) :
    Advances n n.step s x run 0 := by
  have hapart : { n with agenda := rest }.Apart s x := h.apart.of_wiring_eq rfl
  have hhosts : { n with agenda := rest }.Hosts s x busy run := ⟨h.hosts.source, h.hosts.session⟩
  obtain ⟨later, hlater⟩ : ∃ later, Task.own x rest = later := ⟨_, rfl⟩
  have hown : Task.own x n.agenda = later := by
    rw [hagenda, Task.own_cons_of_ne hforeign.owner_ne, hlater]
  have hahead : later.foldl Task.carry run = (n.ahead x run).run n.lexer 0 := by
    rw [SoloRun.run, ahead, hown]
  have hunderway := h.underway
  have hawake := h.awake
  rw [hown] at hunderway hawake
  by_cases htells : ∃ t k text, task = .tellInput t k text ∧ n.Notifies t k x
  · obtain ⟨t, k, text, rfl, hk⟩ := htells
    have hperform : { n with agenda := rest }.perform (.tellInput t k text) =
        { n with agenda := rest }.wake x := by
      have hk' : { n with agenda := rest }.inputs[t]?.bind (·.subscribers[k]?) =
          some (.session x) := hk
      rw [perform, tellInput, hk']
    rcases becomes_wake hhosts with ⟨hbecomes, hidle⟩ | ⟨hbecomes, rfl⟩
    · rw [← hperform] at hbecomes
      refine h.of_becomes hagenda hlater hbecomes hunderway hahead ?_
      rcases hawake with hresumes | ⟨rfl, -⟩ | hsettled
      · exact .inl hresumes
      · cases hunderway with
        | idle =>
          rw [← hahead]
          exact .inr (.inr (SoloRun.settled_of_stopped (hidle.resolve_left Bool.false_ne_true)))
      · exact .inr (.inr hsettled)
    · rw [← hperform] at hbecomes
      cases hunderway with
      | idle =>
        exact h.of_becomes hagenda hlater hbecomes .drain hahead
          (.inl ⟨_, List.mem_singleton_self _, trivial⟩)
  · have hleaves : Leaves s x { n with agenda := rest } ({ n with agenda := rest }.perform task) :=
      leaves_perform hapart hforeign fun t k text htask hk => htells ⟨t, k, text, htask, hk⟩
    refine h.of_becomes hagenda hlater (hleaves.becomes hhosts) hunderway hahead ?_
    rcases hawake with hresumes | ⟨hidle, k, text, hmem, hk⟩ | hsettled
    · exact .inl hresumes
    · refine .inr (.inl ⟨hidle, k, text, ?_, hk.of_wiring_eq wiring_step⟩)
      rw [hagenda] at hmem
      rcases List.mem_cons.1 hmem with htask | hmem
      · exact (htells ⟨s, k, text, htask.symm, hk⟩).elim
      · obtain ⟨added, hadded, -⟩ := hleaves.agenda
        have hstep : n.step.agenda = added ++ rest := by
          rw [step, hagenda]
          exact hadded
        rw [hstep]
        exact List.mem_append_right _ hmem
    · exact .inr (.inr hsettled)

/-! ### Runs of tasks -/

theorem Attends.step (h : n.Attends s x busy run) : ∃ k, Advances n n.step s x run k := by
  cases hagenda : n.agenda with
  | nil =>
    have hstep : n.step = n := by
      rw [Network.step, hagenda]
    rw [hstep]
    exact ⟨0, busy, run, h, rfl⟩
  | cons task rest =>
    by_cases howner : task.owner? = some x
    · by_cases hdrain : task = .drain x
      · subst hdrain
        exact ⟨1, h.step_drain hagenda⟩
      · exact ⟨0, h.step_own hagenda howner hdrain⟩
    · refine ⟨0, h.step_foreign hagenda ⟨howner, fun q hq => h.spares q ?_⟩⟩
      rw [hagenda, hq]
      exact List.mem_cons_self

/-- However many tasks are done, what lies ahead of the session is a later part of one run. -/
theorem Attends.settle (h : n.Attends s x busy run) (fuel : Nat) :
    ∃ k, Advances n (n.settle fuel) s x run k := by
  induction fuel generalizing n busy run with
  | zero => exact ⟨0, busy, run, h, rfl⟩
  | succ fuel ih =>
    rw [Network.settle]
    split_ifs
    · exact ⟨0, busy, run, h, rfl⟩
    · obtain ⟨k₁, busy₁, run₁, h₁, hahead₁⟩ := h.step
      obtain ⟨k₂, busy₂, run₂, h₂, hahead₂⟩ := ih h₁
      have hlexer : n.step.lexer = n.lexer := congrArg Wiring.lexer wiring_step
      refine ⟨k₁ + k₂, busy₂, run₂, h₂, ?_⟩
      rw [hahead₂, hahead₁, hlexer, SoloRun.run_add]

theorem Attends.settled (h : n.Attends s x busy run) (hagenda : n.agenda = []) :
    busy = false ∧ n.ahead x run = run ∧ run.Settled n.lexer := by
  have hown : Task.own x n.agenda = [] := by
    rw [hagenda]
    rfl
  have hahead : n.ahead x run = run := by
    rw [ahead, hown, List.foldl_nil]
  have hunderway := h.underway
  rw [hown] at hunderway
  cases hunderway with
  | idle =>
    refine ⟨rfl, hahead, ?_⟩
    rcases h.awake with ⟨task, hmem, -⟩ | ⟨-, k, text, hmem, -⟩ | hsettled
    · rw [hown] at hmem
      cases hmem
    · rw [hagenda] at hmem
      cases hmem
    · rw [hahead] at hsettled
      exact hsettled

end Tasks

end Network

end DerivativeLexer
