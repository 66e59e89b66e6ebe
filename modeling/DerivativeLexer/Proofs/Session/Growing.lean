import DerivativeLexer.Proofs.Session.Ahead
import DerivativeLexer.Proofs.Session.Streaming

/-! # Input that comes while a session works

Actions and listeners may push to the source that the session reads while the session is at work,
and close it. The session is told then, too, but it is busy and does not look. Nothing is lost: as
long as it is busy it either looks at its source again before it is done, or what lies ahead of it
has settled on the source as it is. And while it waits for input, it is told about its source by
everybody who pushes to it. During the first drain it is not told yet; but then it is busy as long
as anything is on the agenda. -/

namespace DerivativeLexer

variable {τ π : Type}

/-! ### Histories -/

/-- What the task does to the source `s`, if nobody reads from it. -/
def Task.feed (s : Nat) (total : Source Char) : Task τ → Source Char
  | .request (.source (.push t text)) => if t = s then total.push text else total
  | .request (.source (.close t)) => if t = s then total.close else total
  | _ => total

def Event.feed (s : Nat) (total : Source Char) : Event τ → Source Char
  | .task t _ => t.feed s total
  | _ => total

/-- Nobody else comes to read the source. -/
def Event.Spares (s : Nat) : Event τ → Prop
  | .launch t _ _ | .disturb t _ => t ≠ s
  | _ => True

/-- Nothing is asked from outside. -/
def Event.Inside : Event τ → Prop
  | .call _ | .launch _ _ _ => False
  | _ => True

/-- A session `x` is launched on a source `s` that nobody else reads, behind the first `skip`
characters of what is in the source by then, and drains what is there, and whatever its actions and
the listeners add meanwhile. `total` is the source as it would be if nobody read from it. -/
inductive FirstDrain (l : Lexer τ π) (s skip : Nat) :
    (x : Nat) → (total : Source Char) → Network τ π → Prop
  | launch {n : Network τ π} {source : Source Char} {offset : Nat} {feed : Feed Char}
      (hreachable : n.Reachable l) (hagenda : n.agenda = []) (hsource : n.source? s = some source)
      (hreaders : ∀ y ρ, n.session? y = some ρ → ρ.input ≠ s)
      (hskip : Network.skipFrom ⟨source, .of source⟩ source.pulled skip = (.ok offset, feed)) :
      FirstDrain l s skip n.sessions.size source
        ((n.modifySource s fun _ => feed.source).launch s offset feed.reader)
  | next {n n' : Network τ π} {x : Nat} {total : Source Char} {e : Event τ}
      (h : FirstDrain l s skip x total n) (hnext : n.Happens e n') (hinside : e.Inside)
      (hspares : e.Spares s) : FirstDrain l s skip x (e.feed s total) n'

/-- After the first drain the session is told about its source, and anything may happen, except
that nobody else comes to read the source. -/
inductive Served (l : Lexer τ π) (s skip x : Nat) : (total : Source Char) → Network τ π → Prop
  | enroll {n : Network τ π} {total : Source Char} (h : FirstDrain l s skip x total n)
      (hreturns : n.agenda = []) : Served l s skip x total (n.subscribe s (.session x))
  | next {n n' : Network τ π} {total : Source Char} {e : Event τ} (h : Served l s skip x total n)
      (hnext : n.Happens e n') (hspares : e.Spares s) : Served l s skip x (e.feed s total) n'

/-! ### Runs on a source that grows -/

/-- What was drawn through the feed and what is queued are all that came to the source. -/
structure Feed.Holds (f : Feed Char) (total : Source Char) : Prop where
  text_eq : f.text = total.queue
  start_eq : f.reader.start = total.pulled
  closed_eq : f.source.closed = total.closed

/-- The run is on all of the source, and it is a part of the run from the beginning, or shows what
such a run comes to. -/
structure Leads (l : Lexer τ π) (skip : Nat) (total : Source Char) (run : SoloRun τ π) : Prop where
  holds : run.feed.Holds total
  leads : ∃ start k, SoloRun.opening? l total skip = some start ∧
    (start.run l k = run ∨ run.Foreshows (start.run l k))

section

variable {l : Lexer τ π} {s skip x : Nat} {total source : Source Char} {run : SoloRun τ π}
  {items : List Char} {closing : Bool}

namespace Feed

variable {f g : Feed Char}

theorem holds_of (source : Source Char) : (⟨source, .of source⟩ : Feed Char).Holds source :=
  ⟨rfl, rfl, rfl⟩

theorem Holds.reads (h : f.Holds total) (hreads : f.ReadsTo g) : g.Holds total where
  text_eq := hreads.text_eq.trans h.text_eq
  start_eq := hreads.start_eq.trans h.start_eq
  closed_eq := hreads.closed_eq.trans h.closed_eq

theorem Holds.grow (h : f.Holds total) (items : List Char) (closing : Bool) :
    (f.grow items closing).Holds (total.grow items closing) := by
  cases hclosed : total.closed with
  | true =>
    rw [Feed.grow_of_closed (h.closed_eq.trans hclosed), Source.grow_of_closed hclosed]
    exact h
  | false =>
    have hopen : f.source.closed = false := h.closed_eq.trans hclosed
    have htext : f.reader.drawn.toList ++ f.source.queue = total.queue := h.text_eq
    refine ⟨?_, h.start_eq.trans ?_, ?_⟩
    · simp [text, Feed.grow, Source.grow, hopen, hclosed, ← htext]
    · simp [Source.grow, hclosed]
    · simp [Feed.grow, Source.grow, hopen, hclosed]

theorem textFrom_of (source : Source Char) :
    (⟨source, .of source⟩ : Feed Char).textFrom source.pulled = source.queue := by
  simp [textFrom, text, Reader.of]

end Feed

/-- Passing over characters fails only where there are too few of them. -/
theorem Network.skipFrom_cases {f : Feed Char} {offset : Nat} (ho : f.Reached offset) (k : Nat) :
    (∃ stop g, skipFrom f offset k = (.ok stop, g) ∧ f.ReadsTo g ∧
        k ≤ (f.textFrom offset).length) ∨
      ∃ stop g, skipFrom f offset k = (.error stop, g) ∧ (f.textFrom offset).length < k := by
  induction k generalizing f offset with
  | zero => exact .inl ⟨offset, f, rfl, .refl f, Nat.zero_le _⟩
  | succ k ih =>
    rw [skipFrom]
    cases htext : f.textFrom offset with
    | nil =>
      rw [Feed.head?_of_textFrom_nil ho htext]
      exact .inr ⟨offset, f, rfl, Nat.succ_pos k⟩
    | cons c rest =>
      obtain ⟨next, hhead, hreads, -⟩ := Feed.head?_of_textFrom_cons ho htext
      have hrest : next.textFrom (offset + 1) = rest := by
        rw [hreads.textFrom_eq, Feed.textFrom_add ho.1, htext]
        rfl
      rw [hhead]
      rcases ih (Feed.reached_of_head? ho hhead) with
        ⟨stop, g, hskip, hreads', hle⟩ | ⟨stop, g, hskip, hlt⟩
      · rw [hrest] at hle
        exact .inl ⟨stop, g, hskip, hreads.trans hreads', Nat.succ_le_succ hle⟩
      · rw [hrest] at hlt
        exact .inr ⟨stop, g, hskip, Nat.succ_lt_succ hlt⟩

namespace SoloRun

theorem Placed.reads (h : run.Placed l) (k : Nat) : run.feed.ReadsTo (run.run l k).feed := by
  induction k generalizing run with
  | zero => exact .refl _
  | succ k ih =>
    cases hlive : run.status.isLive with
    | false =>
      rw [run_of_stopped hlive]
      exact .refl _
    | true =>
      obtain ⟨read, ahead, htracks⟩ := h hlive
      have hstep : run.feed.ReadsTo (run.step l).feed := by
        have hexplains := Engine.explains_move l.config htracks
        rw [SoloRun.step]
        generalize run.engine.move l.rules l.config run.feed = move at hexplains
        cases hexplains with
        | rest => exact .refl _
        | read _ hreads => exact hreads
        | fire => exact .refl _
        | last => exact .refl _
        | deadEnd hreads => exact hreads
        | tooLong _ hreads => exact hreads
      rw [run_succ hlive]
      exact hstep.trans (ih (h.step hlive))

theorem of_opening? (h : opening? l total skip = some run) :
    run.Placed l ∧ run.feed.Holds total ∧ skip ≤ total.queue.length := by
  have hreached : (⟨total, .of total⟩ : Feed Char).Reached total.pulled :=
    ⟨Nat.le_refl _, Nat.le_refl _⟩
  unfold opening? at h
  rcases Network.skipFrom_cases hreached skip with
    ⟨offset, feed, hskip, hreads, hle⟩ | ⟨offset, feed, hskip, -⟩
  · rw [hskip] at h
    obtain rfl := Option.some.inj h
    rw [Feed.textFrom_of] at hle
    refine ⟨fun _ => ⟨[], _, Engine.tracks_enter l.rules ?_⟩, (Feed.holds_of total).reads hreads,
      hle⟩
    exact Network.reached_skipFrom hreached hskip
  · rw [hskip] at h
    cases h

end SoloRun

namespace Leads

theorem grow (h : Leads l skip total run) (items : List Char) (closing : Bool) :
    Leads l skip (total.grow items closing) (run.grow items closing) := by
  obtain ⟨hholds, start, k, hstart, hrun⟩ := h
  refine ⟨hholds.grow items closing, ?_⟩
  have hopening := SoloRun.opening?_grow hstart items closing
  have hgrown : ∀ {later : SoloRun τ π}, run.Foreshows later →
      (run.grow items closing).Foreshows later := fun h => ⟨h.stopped, h.output_eq, h.status⟩
  rcases start.run_grow l items closing k with ⟨hlive, k', hk'⟩ | ⟨k', hk'⟩
  · rcases hrun with heq | hshows
    · rw [heq] at hk'
      exact ⟨_, k', hopening, .inl hk'⟩
    · rw [hshows.stopped_right] at hlive
      cases hlive
  · rcases hrun with heq | hshows
    · rw [heq] at hk'
      exact ⟨_, k', hopening, .inr (hgrown hk')⟩
    · exact ⟨_, k', hopening, .inr (hgrown (hshows.trans hk'))⟩

theorem moves (h : Leads l skip total run) (j : Nat) : Leads l skip total (run.run l j) := by
  obtain ⟨hholds, start, k, hstart, heq | hshows⟩ := h
  · have hplaced : run.Placed l := heq ▸ (SoloRun.of_opening? hstart).1.run k
    refine ⟨hholds.reads (hplaced.reads j), start, k + j, hstart, .inl ?_⟩
    rw [SoloRun.run_add, heq]
  · rw [SoloRun.run_of_stopped hshows.stopped]
    exact ⟨hholds, start, k, hstart, .inr hshows⟩

theorem reproduces (h : Leads l skip total run) (hsettled : run.Settled l) :
    Reproduces l skip total run := by
  obtain ⟨-, start, k, hstart, heq | hshows⟩ := h
  · refine ⟨start, k, hstart, ?_, .inl heq⟩
    rw [heq]
    exact hsettled
  · exact ⟨start, k, hstart, SoloRun.settled_of_stopped hshows.stopped_right, .inr hshows⟩

end Leads

theorem Task.foldl_carry_grow (tasks : List (Task τ)) (run : SoloRun τ π) :
    tasks.foldl carry (run.grow items closing) = (tasks.foldl carry run).grow items closing := by
  induction tasks generalizing run with
  | nil => rfl
  | cons task rest ih =>
    have hcarry : carry (run.grow items closing) task = (carry run task).grow items closing := by
      cases task with
      | _ => rfl
    rw [List.foldl_cons, List.foldl_cons, hcarry, ih]

end

/-! ### Tasks that grow a source -/

/-- What the task adds to the source `s`, and whether it closes the source. -/
def Task.growth? (s : Nat) : Task τ → Option (List Char × Bool)
  | .request (.source (.push t text)) => if t = s then some (text, false) else none
  | .request (.source (.close t)) => if t = s then some ([], true) else none
  | _ => none

theorem Task.feed_eq (s : Nat) (total : Source Char) (task : Task τ) :
    task.feed s total = match task.growth? s with
      | some (items, closing) => total.grow items closing
      | none => total := by
  cases task with
  | request r =>
    cases r with
    | source r =>
      cases r with
      | push t text =>
        simp only [feed, growth?]
        split_ifs
        · exact total.push_eq_grow text
        · rfl
      | close t =>
        simp only [feed, growth?]
        split_ifs
        · exact total.close_eq_grow
        · rfl
    | cancel y => rfl
  | _ => rfl

theorem Task.growth?_eq_some {s : Nat} {task : Task τ} {items : List Char} {closing : Bool}
    (h : task.growth? s = some (items, closing)) :
    (task = .request (.source (.push s items)) ∧ closing = false) ∨
      (task = .request (.source (.close s)) ∧ items = [] ∧ closing = true) := by
  cases task with
  | request r =>
    cases r with
    | source r =>
      cases r with
      | push t text =>
        simp only [growth?] at h
        split_ifs at h with ht
        cases h
        exact .inl ⟨by rw [ht], rfl⟩
      | close t =>
        simp only [growth?] at h
        split_ifs at h with ht
        cases h
        exact .inr ⟨by rw [ht], rfl, rfl⟩
    | cancel y => cases h
  | _ => cases h

namespace Network

variable {l : Lexer τ π} {n n' : Network τ π} {s t k x : Nat} {source : Source Char}
  {σ σ' : Session τ π} {task : Task τ} {rest added : List (Task τ)} {items : List Char}
  {closing : Bool}

theorem perform_growth (hgrowth : task.growth? s = some (items, closing))
    (hsource : n.source? s = some source) :
    (n.perform task).source? s = some (source.grow items closing) ∧
      (source.grow items closing = source ∨
        ∀ other ∈ n.inputTellings s items, other ∈ (n.perform task).agenda) := by
  have hgrown : (n.grown s items closing).source? s = some (source.grow items closing) ∧
      ∀ other ∈ n.inputTellings s items, other ∈ (n.grown s items closing).agenda := by
    refine ⟨?_, fun other hother => List.mem_append_left _ hother⟩
    have hmodify : (n.modifySource s (·.grow items closing)).source? s =
        some (source.grow items closing) := by
      rw [source?_modifySource_self, hsource]
      rfl
    exact hmodify
  rcases Task.growth?_eq_some hgrowth with ⟨rfl, rfl⟩ | ⟨rfl, rfl, rfl⟩
  · rw [perform, grant_push items hsource]
    split_ifs with hclosed
    · rw [Source.grow_of_closed hclosed]
      exact ⟨hsource, .inl rfl⟩
    · exact ⟨hgrown.1, .inr hgrown.2⟩
  · rw [perform, grant_close]
    exact ⟨hgrown.1, .inr hgrown.2⟩

end Network

/-! ### What a session does with it -/

/-- The session is the only one to read its source, what lies ahead of it is a part of a run on all
of the source, and unless it will look at the source again, that has settled. -/
structure Absorbs (l : Lexer τ π) (s skip x : Nat) (total : Source Char) (n : Network τ π)
    (σ : Session τ π) : Prop where
  input_eq : σ.input = s
  readers : ∀ y ρ, n.session? y = some ρ → y ≠ x → ρ.input ≠ s
  ahead : ∃ source, n.source? s = some source ∧
    Leads l skip total (n.ahead x (σ.alone source)) ∧
    ((∃ task ∈ Task.own x n.agenda, task.Resumes) ∨ (σ.busy = false ∧ n.Pending s x) ∨
      (n.ahead x (σ.alone source)).Settled l)

/-- As long as anything is on the agenda, the last of it is a task of the session. -/
def Encloses (x : Nat) (agenda : List (Task τ)) : Prop :=
  ∀ last, agenda.getLast? = some last → last.owner? = some x

section

variable {l : Lexer τ π} {n n' : Network τ π} {s skip t k x : Nat} {total source : Source Char}
  {σ σ' : Session τ π} {task : Task τ} {rest added agenda : List (Task τ)} {e : Event τ}

namespace Stage

/-- When somebody else's task is next, the session moves again later, or waits, or has settled how
it ends. -/
theorem foreign_cases (h : Stage l x σ (task :: rest)) (howner : task.owner? ≠ some x)
    (source : Source Char) :
    (∃ other ∈ Task.own x (task :: rest), other.Resumes) ∨
      σ.busy = false ∨
      ((Task.own x (task :: rest)).foldl Task.carry (σ.alone source)).status.isLive = false := by
  cases h with
  | idle _ hbusy => exact .inr (.inl hbusy)
  | ready => exact (howner rfl).elim
  | rested => exact (howner rfl).elim
  | failing => exact (howner rfl).elim
  | cancelling => exact (howner rfl).elim
  | @acting _ work replays hown =>
    rw [hown]
    exact .inl ⟨.proceed x replays, List.mem_append_right work (List.mem_singleton_self _), trivial⟩
  | ending hown =>
    rw [hown, List.foldl_append]
    exact .inr (.inr rfl)
  | closing hown _ hfinal =>
    rw [hown]
    exact .inr (.inr hfinal.not_isLive)
  | closed hown _ hfinal =>
    rw [hown]
    exact .inr (.inr hfinal.not_isLive)
  | done _ hbusy => exact .inr (.inl hbusy)

end Stage

namespace Network

theorem Turn.input_eq (h : Turn n x σ task σ' added) : σ'.input = σ.input := by
  cases h with
  | _ => rfl

/-! ### Everything else that happens -/

theorem Happens.notifies (h : n.Happens e n') (hk : n.Notifies t k x) : n'.Notifies t k x := by
  cases h with
  | task hagenda hasked => exact hk.of_wiring_eq wiring_step
  | addSource source => exact (Keeps.addSource source).notifies hk
  | disturb u source => exact hk.of_wiring_eq (wiring_modifySource u _)
  | subscribe u subscriber =>
    unfold Notifies at hk ⊢
    rw [Network.subscribe, Array.getElem?_modify]
    split_ifs
    · obtain ⟨i, hi, hu⟩ := Option.bind_eq_some_iff.1 hk
      obtain ⟨hlt, -⟩ := List.getElem?_eq_some_iff.1 hu
      rw [hi, Option.map_some, Option.bind_some, List.getElem?_append_left hlt]
      exact hu
    · exact hk
  | _ => exact hk

theorem Happens.source?_eq (h : n.Happens e n') (hevent : ∀ task asked, e ≠ .task task asked)
    (hspares : e.Spares s) (hsource : n.source? s = some source) : n'.source? s = some source := by
  cases h with
  | task hagenda hasked => exact (hevent _ _ rfl).elim
  | addSource other =>
    obtain ⟨i, hi, hsource⟩ := Option.map_eq_some_iff.1 hsource
    obtain ⟨hlt, rfl⟩ := Array.getElem?_eq_some_iff.1 hi
    rw [source?, Network.addSource, Array.getElem?_push_lt hlt]
    exact congrArg some hsource
  | disturb u other => exact (source?_modifySource_of_ne hspares _).trans hsource
  | subscribe u subscriber => exact (source?_modifySubscribers u _).trans hsource
  | _ => exact hsource

theorem Happens.readers (h : n.Happens e n') (hspares : e.Spares s) {y : Nat}
    (hreads : ∀ ρ, n.session? y = some ρ → ρ.input ≠ s) {ρ : Session τ π}
    (hρ : n'.session? y = some ρ) : ρ.input ≠ s := by
  cases h with
  | task hagenda hasked =>
    obtain ⟨ρ₀, hρ₀, hsame⟩ := session?_wiring wiring_step hρ
    rw [← show ρ₀.input = ρ.input from congrArg Prod.fst hsame]
    exact hreads ρ₀ hρ₀
  | launch t hagenda hreached =>
    rcases session?_launch t _ _ hρ with hρ | ⟨-, -, hinput⟩
    · exact hreads ρ hρ
    · rw [hinput]
      exact hspares
  | drop z hagenda => exact hreads ρ (session?_of_drop hρ)
  | listen z r =>
    obtain ⟨ρ₀, hρ₀, hinput, -⟩ := session?_listen hρ
    rw [hinput]
    exact hreads ρ₀ hρ₀
  | _ => exact hreads ρ hρ

end Network

/-! ### One task -/

namespace Network

theorem Turn.of_source {r : SourceRequest Char}
    (h : Turn n x σ (.request (.source r)) σ' added) :
    (∃ listeners, σ' = { σ with listeners := listeners }) ∧ Task.own x added = [] := by
  cases h with
  | elsewhere _ _ _ _ hadded => exact ⟨⟨_, rfl⟩, Task.own_of_not_about hadded⟩

theorem Happens.perform {asked : List Request} (h : n.Happens (.task task asked) n')
    (hagenda : n.agenda = task :: rest) :
    n'.source? s = ({ n with agenda := rest }.perform task).source? s ∧
      ∀ other ∈ ({ n with agenda := rest }.perform task).agenda, other ∈ n'.agenda := by
  have hstep : n.step = { n with agenda := rest }.perform task := by
    rw [step, hagenda]
  cases h with
  | task hagenda' hasked =>
    rw [hstep]
    exact ⟨rfl, fun other hother => List.mem_append_right _ hother⟩

theorem pending_of_mem (hk : n.Notifies s k x)
    (h : ∀ other ∈ n.inputTellings s items, other ∈ n'.agenda) (hk' : n'.Notifies s k x) :
    n'.Pending s x := by
  obtain ⟨i, hi, hu⟩ := Option.bind_eq_some_iff.1 hk
  refine ⟨k, items, h _ ?_, hk'⟩
  rw [inputTellings, hi]
  exact List.mem_map_of_mem (List.mem_range.2 (List.getElem?_eq_some_iff.1 hu).1)

end Network

theorem Network.ahead_alone_grow {items : List Char} {closing : Bool} :
    n.ahead x (σ.alone (source.grow items closing)) =
      (n.ahead x (σ.alone source)).grow items closing := Task.foldl_carry_grow _ (σ.alone source)

/-- What stands last on the agenda is work of the session, so it is busy. -/
theorem Encloses.busy (h : Encloses x agenda) (hstage : Stage l x σ agenda)
    (hagenda : agenda ≠ []) : σ.busy = true := by
  have hlast := List.getLast?_eq_some_getLast hagenda
  have hmem := (Task.mem_own_iff (h _ hlast)).2 (List.mem_of_getLast? hlast)
  rw [← Bool.not_eq_false]
  intro hbusy
  rw [(hstage.of_not_busy hbusy).1] at hmem
  cases hmem

namespace Absorbs

variable {asked : List Request} {total' source' : Source Char} {run : SoloRun τ π}

theorem of_task (h : Absorbs l s skip x total n σ) (hnext : n.Happens (.task task asked) n')
    (hturn : Network.Turn { n with agenda := rest } x σ task σ' added)
    (hadded : n'.agenda = added ++ rest) (hsource : n'.source? s = some source')
    (hrun : (Task.own x (added ++ rest)).foldl Task.carry (σ'.alone source') = run)
    (hleads : Leads l skip total' run)
    (hawake : (∃ other ∈ Task.own x (added ++ rest), other.Resumes) ∨
      (σ'.busy = false ∧ n'.Pending s x) ∨ run.Settled l) :
    Absorbs l s skip x total' n' σ' := by
  have hahead : n'.ahead x (σ'.alone source') = run := by
    rw [Network.ahead, hadded, hrun]
  refine ⟨hturn.input_eq.trans h.input_eq, fun y ρ hρ hy => ?_, source', hsource, ?_, ?_⟩
  · exact hnext.readers trivial (fun ρ hρ => h.readers y ρ hρ hy) hρ
  · rw [hahead]
    exact hleads
  · rw [hadded, hahead]
    exact hawake

/-- Somebody pushes to the source or closes it. A session that waits for input is told. -/
theorem growth (h : Absorbs l s skip x total n σ) (hnext : n.Happens (.task task asked) n')
    (hstage : Stage l x σ n.agenda) (hagenda : n.agenda = task :: rest)
    (hturn : Network.Turn { n with agenda := rest } x σ task σ' added)
    (hadded : n'.agenda = added ++ rest) (hattended : (∃ k, n.Notifies s k x) ∨ Encloses x n.agenda)
    (hgrowth : task.growth? s = some (items, closing)) :
    Absorbs l s skip x (total.grow items closing) n' σ' := by
  obtain ⟨source, hsource, hleads, hawake⟩ := h.ahead
  obtain ⟨hsource', hmem⟩ := hnext.perform (s := s) hagenda
  obtain ⟨hgrown, htold⟩ :=
    Network.perform_growth (n := { n with agenda := rest }) hgrowth hsource
  have howner : task.owner? ≠ some x := by
    rcases Task.growth?_eq_some hgrowth with ⟨rfl, -⟩ | ⟨rfl, -⟩
    · exact fun h => nomatch h
    · exact fun h => nomatch h
  obtain ⟨⟨listeners, rfl⟩, hnone⟩ :
      (∃ listeners, σ' = { σ with listeners := listeners }) ∧ Task.own x added = [] := by
    rcases Task.growth?_eq_some hgrowth with ⟨rfl, -⟩ | ⟨rfl, -⟩
    · exact hturn.of_source
    · exact hturn.of_source
  have hown : Task.own x (added ++ rest) = Task.own x n.agenda := by
    rw [Task.own_append, hnone, hagenda, Task.own_cons_of_ne howner, List.nil_append]
  refine h.of_task hnext hturn hadded (hsource'.trans hgrown) ?_ (hleads.grow items closing) ?_
  · rw [hown]
    exact Network.ahead_alone_grow
  rw [hown]
  rcases htold with hsame | htold
  · -- the source was closed before, so nothing has changed
    rw [← Network.ahead_alone_grow, hsame]
    rcases hawake with hresumes | ⟨hbusy, k, text, hmem', hk⟩ | hsettled
    · exact .inl hresumes
    · refine .inr (.inl ⟨hbusy, k, text, ?_, hnext.notifies hk⟩)
      rw [hagenda] at hmem'
      rcases List.mem_cons.1 hmem' with htask | hmem'
      · rw [← htask] at hgrowth
        cases hgrowth
      · rw [hadded]
        exact List.mem_append_right _ hmem'
    · exact .inr (.inr hsettled)
  · have hidle : σ.busy = false → σ.busy = false ∧ n'.Pending s x := by
      intro hbusy
      refine ⟨hbusy, ?_⟩
      rcases hattended with ⟨k, hk⟩ | hencloses
      · exact Network.pending_of_mem hk (fun other hother => hmem other (htold other hother))
          (hnext.notifies hk)
      · -- during the first drain the session is busy
        rw [hencloses.busy hstage (hagenda ▸ List.cons_ne_nil _ _)] at hbusy
        cases hbusy
    rcases hawake with hresumes | ⟨hbusy, -⟩ | -
    · exact .inl hresumes
    · exact .inr (.inl (hidle hbusy))
    · rw [hagenda] at hstage ⊢
      rcases hstage.foreign_cases howner source with hresumes | hbusy | hstopped
      · exact .inl hresumes
      · exact .inr (.inl (hidle hbusy))
      · refine .inr (.inr (SoloRun.settled_of_stopped ?_))
        rw [Network.ahead, hagenda]
        exact hstopped

/-- The session moves. -/
theorem drain (h : Absorbs n.lexer s skip x total n σ)
    (hnext : n.Happens (.task (.drain x) asked) n') (hstage : Stage l x σ n.agenda)
    (hσ : n.session? x = some σ) (hcancelled : σ.cancelled = false)
    (hagenda : n.agenda = .drain x :: rest)
    (hturn : Network.Turn { n with agenda := rest } x σ (.drain x) σ' added)
    (hadded : n'.agenda = added ++ rest) : Absorbs n.lexer s skip x total n' σ' := by
  obtain ⟨source, hsource, hleads, -⟩ := h.ahead
  rw [hagenda] at hstage
  obtain ⟨hown, -, hreading⟩ := hstage.of_drain
  have hahead : n.ahead x (σ.alone source) = σ.alone source := by
    rw [Network.ahead, hagenda, Task.own_cons rfl, hown]
    rfl
  have hinput : { n with agenda := rest }.source? σ.input = some source := by
    rw [h.input_eq]
    exact hsource
  obtain ⟨source', hsource', hrun, hawake⟩ :=
    hturn.ahead_drain hσ hinput hreading.live hcancelled
  have hafter : Task.own x (added ++ rest) = Task.own x added := by
    rw [Task.own_append, hown, List.append_nil]
  rw [hahead] at hleads
  rw [h.input_eq] at hsource'
  refine h.of_task hnext hturn hadded ((hnext.perform hagenda).1.trans hsource') ?_
    (hleads.moves 1) ?_
  · rw [hafter]
    exact hrun
  · rw [hafter]
    exact hawake.imp_right .inr

/-- Another task of the session. If the session is to move again, it still is. -/
theorem resumes_own (hresumes : ∃ other ∈ Task.own x (task :: rest), other.Resumes)
    (howner : task.owner? = some x) (hdrain : task ≠ .drain x)
    (hturn : Network.Turn n x σ task σ' added) :
    ∃ other ∈ Task.own x (added ++ rest), other.Resumes := by
  obtain ⟨other, hmem, hother⟩ := hresumes
  rw [Task.own_append]
  rw [Task.own_cons howner] at hmem
  rcases List.mem_cons.1 hmem with rfl | hmem
  · cases hturn with
    | elsewhere h => exact (h howner).elim
    | proceeds =>
      refine ⟨.drain x, List.mem_append_left _ ?_, trivial⟩
      rw [Task.own_cons rfl]
      exact List.mem_cons_self
    | finishes => exact hother.elim
    | releases => exact hother.elim
    | emits => exact hother.elim
    | mute => exact hother.elim
    | closes => exact hother.elim
    | flagged => exact hother.elim
    | cancelled => exact hother.elim
    | woken => exact hother.elim
    | _ => exact (hdrain rfl).elim
  · exact ⟨other, List.mem_append_right _ hmem, hother⟩

/-- Any other task leaves the source as it is, and what lies ahead of the session. If it tells the
session about its source, the session looks. -/
theorem quiet (h : Absorbs l s skip x total n σ) (hnext : n.Happens (.task task asked) n')
    (hstage : Stage l x σ n.agenda) (hcancelled : σ'.cancelled = false)
    (hagenda : n.agenda = task :: rest)
    (hturn : Network.Turn { n with agenda := rest } x σ task σ' added)
    (hadded : n'.agenda = added ++ rest) (hgrowth : task.growth? s = none)
    (hdrain : task ≠ .drain x) : Absorbs l s skip x total n' σ' := by
  obtain ⟨source, hsource, hleads, hawake⟩ := h.ahead
  have hsame : n'.source? s = some source := by
    refine (hnext.perform hagenda).1.trans (.trans ?_ hsource)
    refine Network.source?_perform (n := { n with agenda := rest }) ?_ ?_ ?_
    · rintro text rfl
      rw [Task.growth?, if_pos rfl] at hgrowth
      cases hgrowth
    · rintro rfl
      rw [Task.growth?, if_pos rfl] at hgrowth
      cases hgrowth
    · rintro y ρ rfl hρ
      refine h.readers y ρ hρ ?_
      rintro rfl
      exact hdrain rfl
  refine h.of_task hnext hturn hadded hsame (hturn.ahead_eq hdrain rest source) ?_ ?_
  · rw [Network.ahead, hagenda] at hleads
    exact hleads
  rw [Network.ahead, hagenda] at hawake
  by_cases howner : task.owner? = some x
  · rcases hawake with hresumes | ⟨hbusy, -⟩ | hsettled
    · exact .inl (resumes_own hresumes howner hdrain hturn)
    · have hown := (hstage.of_not_busy hbusy).1
      rw [hagenda, Task.own_cons howner] at hown
      cases hown
    · exact .inr (.inr hsettled)
  · have hown : Task.own x (task :: rest) = Task.own x rest := Task.own_cons_of_ne howner
    rcases hawake with ⟨other, hmem, hother⟩ | ⟨hbusy, k, text, hmem, hk⟩ | hsettled
    · rw [hown] at hmem
      refine .inl ⟨other, ?_, hother⟩
      rw [Task.own_append]
      exact List.mem_append_right _ hmem
    · rw [hagenda] at hmem
      cases hturn with
      | elsewhere _ _ hawake =>
        rcases List.mem_cons.1 hmem with htask | hmem
        · -- the session that is told has stopped
          rcases hawake s k text htask.symm hk with hworks | hstopped
          · rw [hbusy] at hworks
            cases hworks
          · refine .inr (.inr (SoloRun.settled_of_stopped ?_))
            rw [← hagenda, (hstage.of_not_busy hbusy).1]
            exact hstopped
        · refine .inr (.inl ⟨hbusy, k, text, ?_, hnext.notifies hk⟩)
          rw [hadded]
          exact List.mem_append_right _ hmem
      | flagged => cases hcancelled
      | cancelled => cases hcancelled
      | woken =>
        refine .inl ⟨.drain x, ?_, trivial⟩
        rw [List.singleton_append, Task.own_cons rfl]
        exact List.mem_cons_self
      | _ => exact (howner rfl).elim
    · exact .inr (.inr hsettled)

/-- Something else happens. -/
theorem aside {listeners : List (Reaction τ)} (h : Absorbs l s skip x total n σ)
    (hnext : n.Happens e n') (hspares : e.Spares s) (hevent : ∀ task asked, e ≠ .task task asked)
    (hadded : n'.agenda = added ++ n.agenda) (hforeign : ∀ task ∈ added, ¬task.About x) :
    Absorbs l s skip x total n' { σ with listeners := listeners } := by
  obtain ⟨source, hsource, hleads, hawake⟩ := h.ahead
  have hown : Task.own x n'.agenda = Task.own x n.agenda := by
    rw [hadded, Task.own_append, Task.own_of_not_about hforeign, List.nil_append]
  have hahead : n'.ahead x (Session.alone { σ with listeners := listeners } source) =
      n.ahead x (σ.alone source) := by
    rw [Network.ahead, hown]
    rfl
  refine ⟨h.input_eq, fun y ρ hρ hy => ?_, source, hnext.source?_eq hevent hspares hsource, ?_, ?_⟩
  · exact hnext.readers hspares (fun ρ hρ => h.readers y ρ hρ hy) hρ
  · rw [hahead]
    exact hleads
  · rw [hahead, hown]
    rcases hawake with hresumes | ⟨hbusy, k, text, hmem, hk⟩ | hsettled
    · exact .inl hresumes
    · refine .inr (.inl ⟨hbusy, k, text, ?_, hnext.notifies hk⟩)
      rw [hadded]
      exact List.mem_append_right _ hmem
    · exact .inr (.inr hsettled)

theorem feed_eq_of_not_task (hevent : ∀ task asked, e ≠ .task task asked) :
    e.feed s total = total := by
  cases e with
  | task task asked => exact (hevent task asked rfl).elim
  | _ => rfl

theorem happens (h : Absorbs l s skip x total n σ) (hreachable : n.Reachable l)
    (hnext : n.Happens e n') (hspares : e.Spares s) (hσ : n.session? x = some σ)
    (hpasses : Network.Passes n x σ e n' σ') (hcancelled : σ'.cancelled = false)
    (hattended : (∃ k, n.Notifies s k x) ∨ Encloses x n.agenda) :
    Absorbs l s skip x (e.feed s total) n' σ' := by
  have hstage := hreachable.stage hσ
  have hlexer := hreachable.lexer_eq
  have hbefore := hpasses.cancelled_eq hcancelled
  cases hpasses with
  | @turn task asked rest added _ hevent hagenda hturn hadded =>
    subst hevent
    rw [hlexer] at hstage
    have hfeed : Event.feed s total (.task task asked) = task.feed s total := rfl
    rw [hfeed, Task.feed_eq]
    cases hgrowth : task.growth? s with
    | some growth => exact h.growth hnext hstage hagenda hturn hadded hattended hgrowth
    | none =>
      by_cases hdrain : task = .drain x
      · subst hdrain
        subst hlexer
        exact h.drain hnext hstage hσ hbefore hagenda hturn hadded
      · exact h.quiet hnext hstage hcancelled hagenda hturn hadded hgrowth hdrain
  | aside hevent hadded hforeign _ =>
    rw [feed_eq_of_not_task hevent]
    exact h.aside hnext hspares hevent hadded hforeign

end Absorbs

/-! ### The first drain -/

namespace Encloses

theorem turn (h : Encloses x (task :: rest)) (hstage : Stage n.lexer x σ (task :: rest))
    (hturn : Network.Turn n x σ task σ' added) : Encloses x (added ++ rest) := by
  intro last hlast
  cases rest with
  | cons other rest =>
    rw [List.getLast?_append_of_ne_nil _ (List.cons_ne_nil _ _)] at hlast
    refine h last ?_
    rw [List.getLast?_cons_cons]
    exact hlast
  | nil =>
    have howner : task.owner? = some x := h task rfl
    rw [List.append_nil] at hlast
    cases hturn with
    | elsewhere hne => exact (hne howner).elim
    | flagged => cases howner
    | cancelled => cases howner
    | woken => cases howner
    | emits => exact (hstage.own_ne_nil (.emit _) rfl).elim
    | closes => exact (hstage.own_ne_nil .close rfl).elim
    | mute => cases hlast
    | releases => cases hlast
    | fires =>
      rw [List.getLast?_concat] at hlast
      cases hlast
      rfl
    | ends =>
      rw [List.getLast?_concat] at hlast
      cases hlast
      rfl
    | finishes =>
      split_ifs at hlast
      · cases hlast
        rfl
      · cases hlast
        rfl
    | _ =>
      cases hlast
      rfl

theorem happens (h : Encloses x n.agenda) (hreachable : n.Reachable l) (hnext : n.Happens e n')
    (hinside : e.Inside) (hσ : n.session? x = some σ) (hpasses : Network.Passes n x σ e n' σ') :
    Encloses x n'.agenda := by
  cases hpasses with
  | @turn task asked rest added _ _ hagenda hturn hadded =>
    have hstage := hreachable.stage hσ
    rw [hagenda] at h hstage
    rw [hadded]
    exact h.turn (n := { n with agenda := rest }) hstage hturn
  | aside hevent =>
    cases hnext with
    | task => exact (hevent _ _ rfl).elim
    | call => exact hinside.elim
    | launch => exact hinside.elim
    | _ => exact h

end Encloses

/-! ### Histories come to this -/

theorem FirstDrain.reachable (h : FirstDrain l s skip x total n) :
    n.Reachable l ∧ x < n.sessions.size := by
  induction h with
  | @launch n source offset feed hreachable hagenda hsource hreaders hskip =>
    have hreached : feed.Reached offset :=
      Network.reached_skipFrom ⟨Nat.le_refl _, Nat.le_refl _⟩ hskip
    refine ⟨(hreachable.runs (.one (.disturb s feed.source))).runs
      (.one (.launch s hagenda hreached)), ?_⟩
    rw [Network.launch, Network.schedule, Array.size_push]
    exact Nat.lt_succ_self _
  | next h hnext hinside hspares ih => exact ⟨ih.1.runs (.one hnext), ih.2.trans_le hnext.size_le⟩

theorem Served.reachable (h : Served l s skip x total n) : n.Reachable l ∧ x < n.sessions.size := by
  induction h with
  | enroll h hreturns =>
    obtain ⟨hreachable, hx⟩ := h.reachable
    exact ⟨hreachable.runs (.one (.subscribe s (.session x))), hx⟩
  | next h hnext hspares ih => exact ⟨ih.1.runs (.one hnext), ih.2.trans_le hnext.size_le⟩

theorem FirstDrain.absorbs (h : FirstDrain l s skip x total n) (hσ : n.session? x = some σ) :
    Encloses x n.agenda ∧ (σ.cancelled = false → Absorbs l s skip x total n σ) := by
  induction h generalizing σ with
  | @launch n source offset feed hreachable hagenda hsource hreaders hskip =>
    have htasks : ((n.modifySource s fun _ => feed.source).launch s offset feed.reader).agenda =
        [.drain n.sessions.size] := by
      rw [Network.launch, Network.schedule, Network.modifySource, hagenda]
      rfl
    have hown : Task.own n.sessions.size [(.drain n.sessions.size : Task τ)] =
        [.drain n.sessions.size] := Task.own_cons rfl
    have hsession := Network.session?_launch_size (n := n.modifySource s fun _ => feed.source) s
      offset feed.reader
    obtain rfl := Option.some.inj (hσ.symm.trans hsession)
    refine ⟨fun last hlast => ?_, fun _ => ⟨rfl, fun y ρ hρ hy => ?_, feed.source, ?_, ?_, ?_⟩⟩
    · rw [htasks] at hlast
      cases hlast
      rfl
    · rcases Network.session?_launch s offset feed.reader hρ with hρ | ⟨hsize, -⟩
      · exact hreaders y ρ hρ
      · exact (hy hsize).elim
    · have hfed : (n.modifySource s fun _ => feed.source).source? s = some feed.source := by
        rw [Network.source?_modifySource_self, hsource]
        rfl
      exact hfed
    · rw [Network.ahead, htasks, hown, ← hreachable.lexer_eq]
      have hopening : SoloRun.opening? n.lexer source skip =
          some ⟨.start n.lexer.rules offset, feed, .fresh, .stepping⟩ := by
        rw [SoloRun.opening?, hskip]
      exact ⟨(SoloRun.of_opening? hopening).2.1, _, 0, hopening, .inl rfl⟩
    · rw [htasks, hown]
      exact .inl ⟨_, List.mem_singleton_self _, trivial⟩
  | next h hnext hinside hspares ih =>
    obtain ⟨hreachable, hx⟩ := h.reachable
    obtain ⟨σ₀, hσ₀, hpasses⟩ := hnext.passes_before hx hσ
    obtain ⟨hencloses, habsorbs⟩ := ih hσ₀
    refine ⟨hencloses.happens hreachable hnext hinside hσ₀ hpasses, fun hcancelled => ?_⟩
    exact (habsorbs (hpasses.cancelled_eq hcancelled)).happens hreachable hnext hspares hσ₀ hpasses
      hcancelled (.inr hencloses)

theorem Served.absorbs (h : Served l s skip x total n) (hσ : n.session? x = some σ)
    (hcancelled : σ.cancelled = false) :
    (∃ k, n.Notifies s k x) ∧ Absorbs l s skip x total n σ := by
  induction h generalizing σ with
  | @enroll n total h hreturns =>
    have hnext : n.Happens (.subscribe s (.session x)) _ := .subscribe s (.session x)
    obtain ⟨hreachable, hx⟩ := h.reachable
    obtain ⟨σ₀, hσ₀, hpasses⟩ := hnext.passes_before hx hσ
    obtain ⟨hencloses, habsorbs⟩ := h.absorbs hσ₀
    have habsorbs := habsorbs (hpasses.cancelled_eq hcancelled)
    obtain ⟨source, hsource, -⟩ := habsorbs.ahead
    exact ⟨Network.notifies_subscribe hsource,
      habsorbs.happens hreachable hnext trivial hσ₀ hpasses hcancelled (.inr hencloses)⟩
  | next h hnext hspares ih =>
    obtain ⟨hreachable, hx⟩ := h.reachable
    obtain ⟨σ₀, hσ₀, hpasses⟩ := hnext.passes_before hx hσ
    obtain ⟨⟨k, hk⟩, habsorbs⟩ := ih hσ₀ (hpasses.cancelled_eq hcancelled)
    exact ⟨⟨k, hnext.notifies hk⟩,
      habsorbs.happens hreachable hnext hspares hσ₀ hpasses hcancelled (.inl ⟨k, hk⟩)⟩

/-- When nothing is left to do, the session has settled on its source, and shows what a run on all
of the source comes to. -/
theorem Absorbs.at_rest (h : Absorbs l s skip x total n σ) (hagenda : n.agenda = []) :
    ∃ source, n.source? s = some source ∧ (⟨source, σ.reader⟩ : Feed Char).Holds total ∧
      (σ.alone source).Settled l ∧ Reproduces l skip total (σ.alone source) := by
  obtain ⟨source, hsource, hleads, hawake⟩ := h.ahead
  have hown : Task.own x n.agenda = [] := by
    rw [hagenda]
    rfl
  have hahead : n.ahead x (σ.alone source) = σ.alone source := by
    rw [Network.ahead, hown, List.foldl_nil]
  rw [hahead] at hleads hawake
  have hsettled : (σ.alone source).Settled l := by
    rcases hawake with ⟨task, hmem, -⟩ | ⟨-, k, text, hmem, -⟩ | hsettled
    · rw [hown] at hmem
      cases hmem
    · rw [hagenda] at hmem
      cases hmem
    · exact hsettled
  exact ⟨source, hsource, hleads.holds, hsettled, hleads.reproduces hsettled⟩

end

end DerivativeLexer
