import DerivativeLexer.Proofs.Grammar.Closing
import DerivativeLexer.Proofs.Session.Stages

/-! # What a listener hears

What is to be told about a session stands on the agenda in front of the tasks of the session
itself, so nothing more is written before it has been told. Hence a listener hears every item that
is written after it came, in order. Where the table closes the output at the end of the input only,
the output is closed once, either by the last action or when the session finishes, and that is the
last thing that the listener hears. -/

namespace DerivativeLexer

variable {τ π : Type}

namespace Task

def Tells (x : Nat) (task : Task τ) : Prop := ∃ k items, task = .tellOutput x k items

/-- What the task tells the listener `k` on the output of the session. -/
def telling? (x k : Nat) : Task τ → Option (List τ)
  | .tellOutput y j items => if y = x ∧ j = k then some items else none
  | _ => none

def told (x k : Nat) (tasks : List (Task τ)) : List (List τ) := tasks.filterMap (telling? x k)

end Task

def Event.telling? (x k : Nat) : Event τ → Option (List τ)
  | .task t _ => t.telling? x k
  | _ => none

/-- What the listener `k` on the output of the session was told in the course of the events. -/
def heard (x k : Nat) (trace : List (Event τ)) : List (List τ) :=
  trace.filterMap (Event.telling? x k)

/-- The tasks that tell something about the session stand in front of its own, and some of its own
are left as long as there are any. Whoever is told something is there. -/
structure Orderly (x listeners : Nat) (agenda : List (Task τ)) : Prop where
  apart : agenda.Pairwise fun task later => task.owner? = some x → ¬later.Tells x
  awaited : Task.own x agenda = [] → ∀ task ∈ agenda, ¬task.Tells x
  listed : ∀ k items, .tellOutput x k items ∈ agenda → k < listeners

/-- If the output of the session is yet to be closed, then it is open and what closes it is the
last thing to do; and while the session is live, only the last action has closed it. -/
structure ClosesOnce (x : Nat) (σ : Session τ π) (own : List (Task τ)) : Prop where
  left : .close x ∈ own → σ.output.closed = false ∧ (own = [.close x, .finish x .terminated] ∨
    (own = [.close x, .release x] ∧ σ.status.isLive = false))
  shut : σ.output.closed = true → σ.status.isLive = true → own = [.finish x .terminated]

/-- Since the output was `before`, the listener was told, or is about to be told, what was written
there item by item, and that the output was closed. -/
structure Hears (x k : Nat) (before : Source τ) (σ : Session τ π) (agenda : List (Task τ))
    (heard : List (List τ)) : Prop where
  listed : k < σ.listeners.length
  closed : before.closed = true → σ.output.closed = true
  told : ∃ later, σ.output.queue = before.queue ++ later ∧
    heard ++ Task.told x k agenda =
      later.map ([·]) ++ if σ.output.closed && !before.closed then [[]] else []

/-! ### Tellings -/

section

variable {x k : Nat} {task : Task τ} {tasks rest added : List (Task τ)}

namespace Task

theorem Tells.owner_ne (h : task.Tells x) : task.owner? ≠ some x := by
  obtain ⟨k, items, rfl⟩ := h
  exact fun h => nomatch h

theorem told_cons : told x k (task :: rest) = (task.telling? x k).toList ++ told x k rest := by
  unfold told
  cases htelling : task.telling? x k with
  | none => rw [List.filterMap_cons_none htelling, Option.toList_none, List.nil_append]
  | some items => rw [List.filterMap_cons_some htelling, Option.toList_some, List.singleton_append]

theorem told_append (a b : List (Task τ)) : told x k (a ++ b) = told x k a ++ told x k b :=
  List.filterMap_append

theorem telling?_eq_none (h : ¬task.Tells x) : task.telling? x k = none := by
  cases task with
  | tellOutput y j items =>
    refine if_neg ?_
    rintro ⟨rfl, -⟩
    exact h ⟨j, items, rfl⟩
  | _ => rfl

theorem told_of_silent (h : ∀ task ∈ tasks, ¬task.Tells x) : told x k tasks = [] :=
  List.filterMap_eq_nil_iff.2 fun task htask => telling?_eq_none (h task htask)

theorem not_tells_append (ha : ∀ task ∈ added, ¬task.Tells x) (hr : ∀ task ∈ rest, ¬task.Tells x) :
    ∀ task ∈ added ++ rest, ¬task.Tells x := by
  intro task htask
  rcases List.mem_append.1 htask with htask | htask
  · exact ha task htask
  · exact hr task htask

theorem not_tells_own (h : task.owner? = some x) : ∀ other ∈ [task], ¬other.Tells x :=
  List.forall_mem_singleton.2 fun htells => htells.owner_ne h

theorem not_tells_effects (effects : List (Effect τ)) (h : task.owner? = some x) :
    ∀ other ∈ effects.map (Network.effectTask x) ++ [task], ¬other.Tells x := by
  refine not_tells_append ?_ (not_tells_own h)
  rintro other hother ⟨k, items, rfl⟩
  obtain ⟨effect, -, heffect⟩ := List.mem_map.1 hother
  cases effect with
  | emit item => cases heffect
  | close => cases heffect
  | request r => cases heffect

theorem told_range (x k : Nat) (items : List τ) (count : Nat) :
    told x k ((List.range count).map fun j => .tellOutput x j items) =
      if k < count then [items] else [] := by
  induction count with
  | zero => rfl
  | succ count ih =>
    rw [List.range_succ, List.map_append, told_append, ih]
    have hlast : told x k [.tellOutput x count items] = if count = k then [items] else [] := by
      simp only [told, List.filterMap_cons, telling?, true_and, List.filterMap_nil]
      split_ifs
      · rfl
      · rfl
    rw [List.map_singleton, hlast]
    split_ifs with hlt heq hlt' heq
    all_goals first | omega | rfl

end Task

theorem heard_snoc (x k : Nat) (trace : List (Event τ)) (e : Event τ) :
    heard x k (trace ++ [e]) = heard x k trace ++ (e.telling? x k).toList := by
  unfold heard
  rw [List.filterMap_append]
  cases htelling : e.telling? x k with
  | none => rw [List.filterMap_cons_none htelling, Option.toList_none, List.filterMap_nil]
  | some items => rw [List.filterMap_cons_some htelling, Option.toList_some, List.filterMap_nil]

end

namespace Network

variable {n : Network τ π} {x k : Nat} {σ σ' : Session τ π} {task : Task τ}
  {rest added : List (Task τ)}

theorem told_outputTellings (hσ : n.session? x = some σ) (hk : k < σ.listeners.length)
    (items : List τ) : Task.told x k (n.outputTellings x items) = [items] := by
  rw [outputTellings, hσ]
  exact (Task.told_range x k items _).trans (if_pos hk)

theorem lt_of_mem_outputTellings (hσ : n.session? x = some σ) {items items' : List τ}
    (h : .tellOutput x k items' ∈ n.outputTellings x items) : k < σ.listeners.length := by
  rw [outputTellings, hσ] at h
  obtain ⟨j, hj, heq⟩ := List.mem_map.1 h
  cases heq
  exact List.mem_range.1 hj

theorem Turn.length_listeners (h : Turn n x σ task σ' added) :
    σ'.listeners.length = σ.listeners.length := by
  cases h with
  | elsewhere _ _ _ hlength => exact hlength
  | _ => rfl

/-- A task writes into the output of a session and tells its listeners, or does neither. -/
theorem Turn.writes_cases (h : Turn n x σ task σ' added) :
    (σ'.output = σ.output ∧ ∀ other ∈ added, ¬other.Tells x) ∨
      (∃ item, task = .emit x item ∧ σ.output.closed = false ∧
        σ'.output = σ.output.push [item] ∧ added = n.outputTellings x [item]) ∨
      (task = .close x ∧ σ'.output = σ.output.close ∧ added = n.outputTellings x []) := by
  have hnone : ∀ other ∈ ([] : List (Task τ)), ¬other.Tells x := fun _ h => nomatch h
  cases h with
  | elsewhere _ _ _ _ hadded => exact .inl ⟨rfl, fun other hother h => hadded other hother (.inr h)⟩
  | emits hopen => exact .inr (.inl ⟨_, rfl, hopen, rfl, rfl⟩)
  | closes => exact .inr (.inr ⟨rfl, rfl, rfl⟩)
  | fires => exact .inl ⟨rfl, Task.not_tells_effects _ rfl⟩
  | ends => exact .inl ⟨rfl, Task.not_tells_effects _ rfl⟩
  | finishes =>
    refine .inl ⟨rfl, ?_⟩
    split_ifs
    · exact Task.not_tells_own rfl
    · exact List.forall_mem_cons.2
        ⟨fun htells => htells.owner_ne rfl, Task.not_tells_own rfl⟩
  | flagged => exact .inl ⟨rfl, hnone⟩
  | mute => exact .inl ⟨rfl, hnone⟩
  | releases => exact .inl ⟨rfl, hnone⟩
  | _ => exact .inl ⟨rfl, Task.not_tells_own rfl⟩

end Network

/-! ### Order on the agenda -/

section

variable {l : Lexer τ π} {n : Network τ π} {x k count : Nat} {σ σ' : Session τ π} {task : Task τ}
  {rest added agenda : List (Task τ)}

namespace Orderly

theorem of_silent (h : ∀ task ∈ agenda, ¬task.Tells x) : Orderly x count agenda where
  apart := List.pairwise_of_forall_mem_list fun _ _ later hlater _ => h later hlater
  awaited _ := h
  listed k items hmem := (h _ hmem ⟨k, items, rfl⟩).elim

theorem silent (h : Orderly x count (task :: rest)) (howner : task.owner? = some x) :
    ∀ other ∈ rest, ¬other.Tells x :=
  fun _ hother => List.rel_of_pairwise_cons h.apart hother howner

theorem tail (h : Orderly x count (task :: rest)) (howner : task.owner? ≠ some x) :
    Orderly x count rest where
  apart := h.apart.of_cons
  awaited hown := by
    rw [← Task.own_cons_of_ne howner] at hown
    exact List.forall_mem_of_forall_mem_cons (h.awaited hown)
  listed k items hmem := h.listed k items (List.mem_cons_of_mem task hmem)

theorem foreign (h : Orderly x count rest) (hadded : ∀ task ∈ added, ¬task.About x) :
    Orderly x count (added ++ rest) where
  apart := by
    refine List.pairwise_append.2 ⟨?_, h.apart, ?_⟩
    · refine List.pairwise_of_forall_mem_list fun task htask _ _ howner => ?_
      exact (hadded task htask (.inl howner)).elim
    · intro task htask _ _ howner
      exact (hadded task htask (.inl howner)).elim
  awaited hown := by
    rw [Task.own_append, Task.own_of_not_about hadded, List.nil_append] at hown
    exact Task.not_tells_append (fun task htask htells => hadded task htask (.inr htells))
      (h.awaited hown)
  listed k items hmem := by
    rcases List.mem_append.1 hmem with hmem | hmem
    · exact (hadded _ hmem (.inr ⟨k, items, rfl⟩)).elim
    · exact h.listed k items hmem

theorem tellings (hσ : n.session? x = some σ) (hown : Task.own x rest ≠ [])
    (hrest : ∀ task ∈ rest, ¬task.Tells x) (items : List τ) :
    Orderly x σ.listeners.length (n.outputTellings x items ++ rest) where
  apart := by
    have howner : ∀ task ∈ n.outputTellings x items, task.owner? ≠ some x := by
      intro task htask
      obtain ⟨k, rfl⟩ := Network.mem_outputTellings htask
      exact fun h => nomatch h
    refine List.pairwise_append.2 ⟨?_, ?_, ?_⟩
    · exact List.pairwise_of_forall_mem_list fun task htask _ _ h => (howner task htask h).elim
    · exact List.pairwise_of_forall_mem_list fun _ _ later hlater _ => hrest later hlater
    · exact fun task htask _ _ h => (howner task htask h).elim
  awaited hnil := by
    rw [Task.own_append, Task.own_outputTellings, List.nil_append] at hnil
    exact (hown hnil).elim
  listed k items' hmem := by
    rcases List.mem_append.1 hmem with hmem | hmem
    · exact Network.lt_of_mem_outputTellings hσ hmem
    · exact (hrest _ hmem ⟨k, items', rfl⟩).elim

theorem turn (h : Orderly x σ.listeners.length (task :: rest))
    (hstage : Stage n.lexer x σ (task :: rest)) (hσ : n.session? x = some σ)
    (hturn : Network.Turn n x σ task σ' added) :
    Orderly x σ'.listeners.length (added ++ rest) := by
  rw [hturn.length_listeners]
  by_cases howner : task.owner? = some x
  · have hrest := h.silent howner
    rcases hturn.writes_cases with ⟨-, hadded⟩ | ⟨item, rfl, -, -, rfl⟩ | ⟨rfl, -, rfl⟩
    · exact of_silent (Task.not_tells_append hadded hrest)
    · exact tellings hσ (hstage.own_ne_nil (.emit item)) hrest [item]
    · exact tellings hσ (hstage.own_ne_nil .close) hrest []
  · -- what wakes the session finds nothing that is still to be told
    have hwoken : σ.busy = false → Orderly x σ.listeners.length ([.drain x] ++ rest) := by
      intro hbusy
      obtain ⟨hown, -⟩ := hstage.of_not_busy hbusy
      have hrest := h.awaited hown
      exact of_silent (Task.not_tells_append (Task.not_tells_own rfl)
        fun other hother => hrest other (List.mem_cons_of_mem task hother))
    cases hturn with
    | elsewhere _ _ _ _ hadded => exact (h.tail howner).foreign hadded
    | flagged => exact h.tail howner
    | cancelled hbusy => exact hwoken hbusy
    | woken _ hbusy => exact hwoken hbusy
    | _ => exact (howner rfl).elim

end Orderly

theorem Network.Reachable.orderly (h : n.Reachable l) (hσ : n.session? x = some σ) :
    Orderly x σ.listeners.length n.agenda := by
  refine h.follow (P := fun n σ => Orderly x σ.listeners.length n.agenda) ?_ ?_ hσ
  · intro m t offset reader hagenda hx hreached
    refine .of_silent ?_
    rw [launch, schedule, hagenda, hx]
    exact Task.not_tells_own rfl
  · intro m m' σ σ' e hm hσ horderly _ _ hpasses
    cases hpasses with
    | @turn task _ rest _ _ _ hagenda hturn hadded =>
      have hstage := hm.stage hσ
      rw [hagenda] at horderly hstage
      rw [hadded]
      exact horderly.turn (n := { m with agenda := rest }) hstage hσ hturn
    | aside _ hadded hforeign _ =>
      rw [hadded]
      obtain ⟨hapart, hawaited, hlisted⟩ := horderly.foreign hforeign
      refine ⟨hapart, hawaited, fun k items hmem => (hlisted k items hmem).trans_le ?_⟩
      rw [List.length_append]
      exact Nat.le_add_right _ _

/-! ### The output is closed once -/

namespace ClosesOnce

variable {own : List (Task τ)}

theorem of_not_mem (hclose : .close x ∉ own) (hopen : σ.output.closed = false) :
    ClosesOnce x σ own where
  left hmem := (hclose hmem).elim
  shut hclosed := by
    rw [hopen] at hclosed
    cases hclosed

theorem of_stopped (hclose : .close x ∉ own) (hstopped : σ.status.isLive = false) :
    ClosesOnce x σ own where
  left hmem := (hclose hmem).elim
  shut _ hlive := by
    rw [hstopped] at hlive
    cases hlive

/-- A live session that has anything else to do than to finish has not closed its output. -/
theorem output_open (h : ClosesOnce x σ own) (hlive : σ.status.isLive = true)
    (hown : own ≠ [.finish x .terminated]) : σ.output.closed = false := by
  rw [Bool.eq_false_iff]
  exact fun hclosed => hown (h.shut hclosed hlive)

theorem close_not_mem (h : ClosesOnce x σ (task :: own)) (htask : task ≠ .close x) :
    .close x ∉ own := by
  intro hmem
  obtain ⟨-, hown | ⟨hown, -⟩⟩ := h.left (List.mem_cons_of_mem task hmem)
  · exact htask (List.cons.inj hown).1
  · exact htask (List.cons.inj hown).1

theorem close_not_mem_effects {effects : List (Effect τ)} (h : .close ∉ effects) :
    .close x ∉ Task.own x (effects.map (Network.effectTask x)) := by
  intro hmem
  obtain ⟨effect, heffect, htask⟩ := List.mem_map.1 (List.mem_filter.1 hmem).1
  cases effect with
  | emit item => cases htask
  | close => exact h heffect
  | request r => cases htask

theorem close_not_mem_own {tasks : List (Task τ)} (h : .close x ∉ tasks) :
    .close x ∉ Task.own x tasks :=
  fun hmem => h (List.mem_filter.1 hmem).1

theorem turn_drain (hall : n.lexer.rules.All RuleTable.ClosesAtEnd)
    (hstage : Stage n.lexer x σ (.drain x :: rest))
    (h : ClosesOnce x σ (Task.own x (.drain x :: rest)))
    (hturn : Network.Turn n x σ (.drain x) σ' added) :
    ClosesOnce x σ' (Task.own x (added ++ rest)) := by
  obtain ⟨hown, -, hreading⟩ := hstage.of_drain
  rw [Task.own_cons rfl] at h
  have hopen := h.output_open hreading.live fun h => nomatch h
  have hfeed : Engine.Placed n.lexer.rules
      (⟨(n.source? σ.input).getD .fresh, σ.reader⟩ : Feed Char).reader σ.engine := hreading.placed
  obtain ⟨read, ahead, htracks⟩ := hfeed.tracks
  rw [Task.own_append, hown, List.append_nil]
  have hone : ∀ {task : Task τ}, task ≠ .close x → .close x ∉ Task.own x [task] := fun hne =>
    close_not_mem_own fun hmem => hne (List.mem_singleton.1 hmem).symm
  cases hturn with
  | elsewhere howner => exact (howner rfl).elim
  | halts => exact of_not_mem (hone fun h => nomatch h) hopen
  | heeds => exact of_not_mem (hone fun h => nomatch h) hopen
  | rests => exact of_not_mem (hone fun h => nomatch h) hopen
  | reads => exact of_not_mem (hone fun h => nomatch h) hopen
  | fails => exact of_not_mem (hone fun h => nomatch h) hopen
  | fires _ _ hmove =>
    have hsilent := close_not_mem_effects (x := x) (Engine.close_not_mem_of_fire hall htracks hmove)
    refine of_not_mem (fun hmem => ?_) hopen
    rw [Task.own_append] at hmem
    exact (List.mem_append.1 hmem).elim hsilent (hone fun h => nomatch h)
  | ends _ _ hmove =>
    rcases Engine.close_of_last hall hmove with hsilent | hcloses
    · refine of_not_mem (fun hmem => ?_) hopen
      rw [Task.own_append] at hmem
      exact (List.mem_append.1 hmem).elim (close_not_mem_effects hsilent)
        (hone fun h => nomatch h)
    · rw [hcloses]
      have hown' : Task.own x ([.close].map (Network.effectTask x) ++ [.finish x .terminated]) =
          [(.close x : Task τ), .finish x .terminated] := by
        rw [List.map_singleton, List.singleton_append, Network.effectTask, Task.own_cons rfl,
          Task.own_cons rfl]
        rfl
      rw [hown']
      refine ⟨fun _ => ⟨hopen, .inl rfl⟩, fun hclosed => ?_⟩
      rw [hopen] at hclosed
      cases hclosed

theorem turn (hall : n.lexer.rules.All RuleTable.ClosesAtEnd)
    (hstage : Stage n.lexer x σ (task :: rest)) (h : ClosesOnce x σ (Task.own x (task :: rest)))
    (hturn : Network.Turn n x σ task σ' added) :
    ClosesOnce x σ' (Task.own x (added ++ rest)) := by
  have hdrain : task = .drain x → ClosesOnce x σ' (Task.own x (added ++ rest)) := by
    rintro rfl
    exact h.turn_drain hall hstage hturn
  have hwoken : σ.busy = false → σ.status.isLive = true → task.owner? ≠ some x →
      .close x ∉ Task.own x ([.drain x] ++ rest) ∧ σ.output.closed = false := by
    intro hbusy hlive howner
    obtain ⟨hown, -⟩ := hstage.of_not_busy hbusy
    rw [hown] at h
    rw [Task.own_cons_of_ne howner] at hown
    rw [Task.own_append, hown, List.append_nil]
    exact ⟨close_not_mem_own fun hmem => (nomatch List.mem_singleton.1 hmem),
      h.output_open hlive fun h => nomatch h⟩
  cases hturn with
  | elsewhere howner _ _ _ hadded =>
    rw [Task.own_cons_of_ne howner] at h
    rw [Task.own_append, Task.own_of_not_about hadded, List.nil_append]
    exact ⟨h.left, h.shut⟩
  | flagged =>
    have hrest : Task.own x (.request (.cancel x) :: rest) = Task.own x rest :=
      Task.own_cons_of_ne fun h => nomatch h
    rw [hrest] at h
    exact ⟨h.left, h.shut⟩
  | cancelled hbusy hlive =>
    obtain ⟨hclose, hopen⟩ := hwoken hbusy hlive fun h => nomatch h
    exact of_not_mem hclose hopen
  | woken _ hbusy hlive =>
    obtain ⟨hclose, hopen⟩ := hwoken hbusy hlive fun h => nomatch h
    exact of_not_mem hclose hopen
  | emits hopen =>
    rw [Task.own_cons rfl] at h
    rw [Task.own_append, Task.own_outputTellings, List.nil_append]
    exact of_not_mem (h.close_not_mem fun h => nomatch h) ((Source.closed_push _ _).trans hopen)
  | mute hclosed =>
    rw [Task.own_cons rfl] at h
    refine of_stopped (h.close_not_mem fun h => nomatch h) ?_
    rw [Bool.eq_false_iff]
    intro hlive
    rw [h.output_open hlive fun h => nomatch h] at hclosed
    cases hclosed
  | closes =>
    rw [Task.own_cons rfl] at h
    rw [Task.own_append, Task.own_outputTellings, List.nil_append]
    obtain ⟨-, hown | ⟨hown, hstopped⟩⟩ := h.left List.mem_cons_self
    · rw [(List.cons.inj hown).2]
      exact ⟨fun hmem => (nomatch List.mem_singleton.1 hmem), fun _ _ => rfl⟩
    · rw [(List.cons.inj hown).2]
      exact of_stopped (fun hmem => (nomatch List.mem_singleton.1 hmem)) hstopped
  | proceeds =>
    obtain ⟨hown, -, hlive, -⟩ := hstage.of_proceed
    rw [Task.own_cons rfl] at h
    rw [Task.own_append, hown, List.append_nil]
    exact of_not_mem (close_not_mem_own fun hmem => (nomatch List.mem_singleton.1 hmem))
      (h.output_open hlive fun h => nomatch h)
  | finishes =>
    obtain ⟨hown, -, -, hfinal, -⟩ := hstage.of_finish
    rw [Task.own_append, hown, List.append_nil]
    split_ifs with hclosed
    · exact of_stopped (close_not_mem_own fun hmem => (nomatch List.mem_singleton.1 hmem))
        hfinal.not_isLive
    · rw [Task.own_cons rfl, Task.own_cons rfl]
      refine ⟨fun _ => ⟨Bool.not_eq_true _ ▸ hclosed, .inr ⟨rfl, hfinal.not_isLive⟩⟩,
        fun hclosed' => (hclosed hclosed').elim⟩
  | releases =>
    rw [Task.own_cons rfl] at h
    have hclose := h.close_not_mem fun h => nomatch h
    obtain ⟨-, -, hcalm | ⟨hfinal, -⟩⟩ := hstage.of_release
    · exact of_not_mem hclose (h.output_open hcalm.live fun h => nomatch h)
    · exact of_stopped hclose hfinal.not_isLive
  | _ => exact hdrain rfl

end ClosesOnce

theorem Network.Reachable.closesOnce (h : n.Reachable l)
    (hall : l.rules.All RuleTable.ClosesAtEnd) (hσ : n.session? x = some σ) :
    ClosesOnce x σ (Task.own x n.agenda) := by
  refine h.follow (P := fun n σ => ClosesOnce x σ (Task.own x n.agenda)) ?_ ?_ hσ
  · intro m t offset reader hagenda hx hreached
    refine .of_not_mem (ClosesOnce.close_not_mem_own ?_) rfl
    rw [launch, schedule, hagenda]
    intro hmem
    cases List.mem_singleton.1 hmem
  · intro m m' σ σ' e hm hσ honce _ _ hpasses
    cases hpasses with
    | @turn task _ rest _ _ _ hagenda hturn hadded =>
      have hstage := hm.stage hσ
      rw [← hm.lexer_eq] at hall
      rw [hagenda] at honce hstage
      rw [hadded]
      exact honce.turn (n := { m with agenda := rest }) hall hstage hturn
    | aside _ hadded hforeign _ =>
      rw [hadded, Task.own_append, Task.own_of_not_about hforeign, List.nil_append]
      exact ⟨honce.left, honce.shut⟩

/-! ### Listeners -/

namespace Hears

variable {before : Source τ} {told : List (List τ)}

theorem start (hlisted : k < σ.listeners.length) (htold : Task.told x k agenda = []) :
    Hears x k σ.output σ agenda [] := by
  refine ⟨hlisted, id, [], (List.append_nil _).symm, ?_⟩
  rw [htold, Bool.and_not_self]
  rfl

theorem turn (h : Hears x k before σ (task :: rest) told)
    (horderly : Orderly x σ.listeners.length (task :: rest))
    (honce : ClosesOnce x σ (Task.own x (task :: rest))) (hσ : n.session? x = some σ)
    (hturn : Network.Turn n x σ task σ' added) :
    Hears x k before σ' (added ++ rest) (told ++ (task.telling? x k).toList) := by
  obtain ⟨hlisted, hclosed, later, hqueue, htold⟩ := h
  rw [Task.told_cons] at htold
  have hlisted' : k < σ'.listeners.length := by rwa [hturn.length_listeners]
  have hbefore : σ.output.closed = false → before.closed = false := by
    intro hopen
    rw [Bool.eq_false_iff]
    intro h
    rw [hclosed h] at hopen
    cases hopen
  rcases hturn.writes_cases with ⟨houtput, hadded⟩ | ⟨item, rfl, hopen, houtput, rfl⟩ |
    ⟨rfl, houtput, rfl⟩
  · refine ⟨hlisted', fun h => ?_, later, ?_, ?_⟩
    · rw [houtput]
      exact hclosed h
    · rw [houtput, hqueue]
    · rw [houtput, Task.told_append, Task.told_of_silent hadded, List.nil_append, ← htold,
        List.append_assoc]
  · have hrest := Task.told_of_silent (k := k) (horderly.silent rfl)
    refine ⟨hlisted', fun h => ?_, later ++ [item], ?_, ?_⟩
    · rw [hbefore hopen] at h
      cases h
    · rw [houtput, Source.queue_push_open hopen, hqueue, List.append_assoc]
    · rw [hrest, hopen] at htold
      rw [houtput, Source.closed_push, hopen, Task.told_append,
        Network.told_outputTellings hσ hlisted, hrest, List.map_append]
      simpa [Task.telling?] using htold
  · have hrest := Task.told_of_silent (k := k) (horderly.silent rfl)
    rw [Task.own_cons rfl] at honce
    obtain ⟨hopen, -⟩ := honce.left List.mem_cons_self
    refine ⟨hlisted', fun _ => ?_, later, ?_, ?_⟩
    · rw [houtput]
      rfl
    · rw [houtput]
      exact hqueue
    · have hshut : σ'.output.closed = true := by
        rw [houtput]
        rfl
      rw [hrest, hopen] at htold
      rw [hshut, hbefore hopen, Task.told_append, Network.told_outputTellings hσ hlisted, hrest]
      simpa [Task.telling?] using htold

theorem aside {listeners : List (Reaction τ)} (h : Hears x k before σ agenda told)
    (hforeign : ∀ task ∈ added, ¬task.About x) :
    Hears x k before { σ with listeners := σ.listeners ++ listeners } (added ++ agenda) told := by
  obtain ⟨hlisted, hclosed, later, hqueue, htold⟩ := h
  refine ⟨?_, hclosed, later, hqueue, ?_⟩
  · rw [List.length_append]
    exact Nat.lt_add_right _ hlisted
  · rw [Task.told_append, Task.told_of_silent fun task htask htells =>
      hforeign task htask (.inr htells)]
    exact htold

end Hears

/-- What a listener hears from the time when it came. -/
theorem Network.Reachable.hears {m : Network τ π} {trace : List (Event τ)} {r : Reaction τ}
    (h : n.Reachable l) (hall : l.rules.All RuleTable.ClosesAtEnd) (hσ : n.session? x = some σ)
    (hruns : (n.listen x r).Runs trace m) (hσ' : m.session? x = some σ') :
    Hears x σ.listeners.length σ.output σ' m.agenda (heard x σ.listeners.length trace) := by
  have hlistens := h.runs (.one (.listen x r))
  obtain ⟨ρ, hρ⟩ : ∃ ρ, ρ = { σ with listeners := σ.listeners ++ [r] } := ⟨_, rfl⟩
  have hlistened : (n.listen x r).session? x = some ρ := by
    rw [hρ]
    exact session?_modify hσ _
  have hnone : Task.told x σ.listeners.length n.agenda = [] := by
    refine List.filterMap_eq_nil_iff.2 fun task htask => ?_
    cases task with
    | tellOutput y j items =>
      refine if_neg ?_
      rintro ⟨rfl, rfl⟩
      exact Nat.lt_irrefl _ ((h.orderly hσ).listed _ _ htask)
    | _ => rfl
  have hstart : Hears x σ.listeners.length ρ.output ρ n.agenda [] := by
    refine .start ?_ hnone
    rw [hρ, List.length_append]
    exact Nat.lt_succ_self _
  have houtput : ρ.output = σ.output := by
    rw [hρ]
  rw [houtput] at hstart
  refine hruns.follow (P := fun trace m ρ => Hears x σ.listeners.length σ.output ρ m.agenda
    (heard x σ.listeners.length trace)) hlistened hstart ?_ hσ'
  · intro trace m m' ρ ρ' e hbefore hρ hhears _ _ hpasses
    have hm := hlistens.runs hbefore
    rw [heard_snoc]
    cases hpasses with
    | @turn task asked rest added _ hevent hagenda hturn hadded =>
      subst hevent
      have horderly := hm.orderly hρ
      have honce := hm.closesOnce hall hρ
      rw [hagenda] at hhears horderly honce
      rw [hadded]
      exact hhears.turn (n := { m with agenda := rest }) horderly honce hρ hturn
    | aside hevent hadded hforeign _ =>
      have hnone : e.telling? x σ.listeners.length = none := by
        cases e with
        | task task asked => exact (hevent task asked rfl).elim
        | _ => rfl
      rw [hnone, Option.toList_none, List.append_nil, hadded]
      exact hhears.aside hforeign

end

end DerivativeLexer
