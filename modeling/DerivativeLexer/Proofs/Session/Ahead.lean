import DerivativeLexer.Proofs.Session.Stages

/-! # What lies ahead of a session

A session together with its source is a run of its own, and the tasks of the session on the agenda
say what that run will have come to when they are done. Doing one of them does not change that,
unless it is the next move of the engine. -/

namespace DerivativeLexer

variable {τ π : Type}

/-- The session as a run of its own. -/
def Session.alone (σ : Session τ π) (source : Source Char) : SoloRun τ π :=
  ⟨σ.engine, ⟨source, σ.reader⟩, σ.output, σ.status⟩

/-- What a move leaves of the source. -/
def Move.sourceAfter (source : Source Char) : Move τ π → Source Char
  | .read _ feed | .fail _ feed => feed.source
  | .rest | .fire _ _ _ | .last _ _ => source

namespace Network.Turn

variable {n : Network τ π} {x : Nat} {σ σ' : Session τ π} {task : Task τ}
  {added : List (Task τ)}

/-- A task that is no move leaves what lies ahead as it is. -/
theorem ahead_eq (h : Turn n x σ task σ' added) (hdrain : task ≠ .drain x)
    (rest : List (Task τ)) (source : Source Char) :
    (Task.own x (added ++ rest)).foldl Task.carry (σ'.alone source) =
      (Task.own x (task :: rest)).foldl Task.carry (σ.alone source) := by
  rw [Task.own_append, List.foldl_append]
  have hown : task.owner? = some x →
      (Task.own x added).foldl Task.carry (σ'.alone source) = Task.carry (σ.alone source) task →
      (Task.own x rest).foldl Task.carry ((Task.own x added).foldl Task.carry (σ'.alone source)) =
        (Task.own x (task :: rest)).foldl Task.carry (σ.alone source) := by
    intro howner hadded
    rw [hadded, Task.own_cons howner, List.foldl_cons]
  have hforeign : task.owner? ≠ some x →
      (Task.own x added).foldl Task.carry (σ'.alone source) = σ.alone source →
      (Task.own x rest).foldl Task.carry ((Task.own x added).foldl Task.carry (σ'.alone source)) =
        (Task.own x (task :: rest)).foldl Task.carry (σ.alone source) := by
    intro howner hadded
    rw [hadded, Task.own_cons_of_ne howner]
  have hwoken : ∀ run : SoloRun τ π,
      (Task.own x [.drain x]).foldl Task.carry run = run := by
    intro run
    rw [Task.own_cons rfl]
    rfl
  cases h with
  | elsewhere howner _ _ _ hadded =>
    refine hforeign howner ?_
    rw [Task.own_of_not_about hadded]
    rfl
  | flagged => exact hforeign (fun h => nomatch h) rfl
  | cancelled => exact hforeign (fun h => nomatch h) (hwoken _)
  | woken => exact hforeign (fun h => nomatch h) (hwoken _)
  | emits hopen =>
    refine hown rfl ?_
    rw [Task.own_outputTellings]
    rfl
  | @mute item hclosed =>
    refine hown rfl ?_
    have hsame : σ.output.push [item] = σ.output := Source.push_closed hclosed _
    rw [Task.carry, Session.alone, hsame]
    rfl
  | closes =>
    refine hown rfl ?_
    rw [Task.own_outputTellings]
    rfl
  | proceeds => exact hown rfl (hwoken _)
  | @finishes status =>
    refine hown rfl ?_
    split_ifs with hclosed
    · have hsame : σ.output.close = σ.output := by
        rw [Source.close_eq_grow, Source.grow_of_closed hclosed]
      have hstop : (σ.alone source).stop status =
          ⟨{ σ.engine with bookmark := none }, ⟨source, σ.reader⟩, σ.output.close, status⟩ := rfl
      rw [Task.own_cons rfl, Task.carry, hstop, hsame]
      rfl
    · rw [Task.own_cons rfl, Task.own_cons rfl]
      rfl
  | releases => exact hown rfl rfl
  | _ => exact (hdrain rfl).elim

theorem cancelled_mono (h : Turn n x σ task σ' added) (hcancelled : σ.cancelled = true) :
    σ'.cancelled = true := by
  cases h with
  | flagged => rfl
  | cancelled => rfl
  | _ => exact hcancelled

theorem items_prefix (h : Turn n x σ task σ' added) : σ.items <+: σ'.items := by
  cases h with
  | @emits item hopen =>
    have hqueue : (σ.output.push [item]).queue = σ.items ++ [item] :=
      Source.queue_push_open hopen [item]
    exact ⟨[item], hqueue.symm⟩
  | _ => exact List.prefix_refl _

end Network.Turn

theorem Network.Passes.cancelled_eq {n n' : Network τ π} {x : Nat} {σ σ' : Session τ π}
    {e : Event τ} (h : Passes n x σ e n' σ') (hcancelled : σ'.cancelled = false) :
    σ.cancelled = false := by
  cases h with
  | turn _ _ hturn =>
    rw [Bool.eq_false_iff]
    intro h
    rw [hturn.cancelled_mono h] at hcancelled
    cases hcancelled
  | aside => exact hcancelled

namespace Network

variable {n : Network τ π} {s t x : Nat} {σ σ' : Session τ π} {source : Source Char}
  {task : Task τ} {rest added : List (Task τ)}

/-! ### Sources -/

theorem source?_modifySubscribers (t : Nat) (f : Input → List Subscriber) :
    { n with inputs := n.inputs.modify t fun i => { i with subscribers := f i } }.source? s =
      n.source? s := by
  unfold source?
  simp only [Array.getElem?_modify]
  split_ifs
  · rw [Option.map_map]
    rfl
  · rfl

theorem source?_wake (y : Nat) : (n.wake y).source? s = n.source? s := by
  unfold wake
  cases n.session? y with
  | none => rfl
  | some σ =>
    simp only
    split_ifs
    · rfl
    · rfl

theorem source?_tellInput (t k : Nat) (text : List Char) :
    (n.tellInput t k text).source? s = n.source? s := by
  unfold tellInput
  cases n.inputs[t]?.bind (·.subscribers[k]?) with
  | none => rfl
  | some u =>
    cases u with
    | session y => exact source?_wake y
    | listener r => exact source?_modifySubscribers t _

theorem source?_tellOutput (y k : Nat) (items : List τ) :
    (n.tellOutput y k items).source? s = n.source? s := by
  unfold tellOutput
  cases n.session? y with
  | none => rfl
  | some σ =>
    simp only
    cases σ.listeners[k]? with
    | none => rfl
    | some r => rfl

theorem source?_emit (y : Nat) (item : τ) : (n.emit y item).source? s = n.source? s := by
  unfold emit
  cases n.session? y with
  | none => rfl
  | some σ =>
    simp only
    split_ifs
    · rfl
    · rfl

theorem source?_finish (y : Nat) (status : SessionStatus) :
    (n.finish y status).source? s = n.source? s := by
  unfold finish
  cases n.session? y with
  | none => rfl
  | some σ => rfl

theorem source?_grant {r : Request} (hpush : ∀ text, r ≠ .source (.push s text))
    (hclose : r ≠ .source (.close s)) : (n.grant r).source? s = n.source? s := by
  cases r with
  | source r =>
    cases r with
    | push t text =>
      have ht : t ≠ s := by
        rintro rfl
        exact hpush text rfl
      simp only [grant]
      cases n.source? t with
      | none => rfl
      | some source =>
        simp only
        split_ifs
        · rfl
        · exact source?_modifySource_of_ne (n := n) ht fun source => source.push text
    | close t =>
      refine source?_modifySource_of_ne ?_ _
      rintro rfl
      exact hclose rfl
  | cancel y => exact source?_wake y

theorem source?_drain_of_ne {y : Nat} (h : ∀ σ, n.session? y = some σ → σ.input ≠ s) :
    (n.drain y).source? s = n.source? s := by
  unfold drain
  cases hσ : n.session? y with
  | none => rfl
  | some σ =>
    have hinput := h σ hσ
    simp only
    split_ifs
    · rfl
    · rfl
    · cases σ.engine.move n.lexer.rules n.lexer.config
          ⟨(n.source? σ.input).getD .fresh, σ.reader⟩ with
      | rest => rfl
      | read engine feed =>
        exact source?_modifySource_of_ne (n := n) hinput fun _ => feed.source
      | fire firing engine replays => rfl
      | last firing engine => rfl
      | fail error feed =>
        exact source?_modifySource_of_ne (n := n) hinput fun _ => feed.source

/-- A source changes only when somebody pushes to it, closes it or reads from it. -/
theorem source?_perform (hpush : ∀ text, task ≠ .request (.source (.push s text)))
    (hclose : task ≠ .request (.source (.close s)))
    (hdrain : ∀ y σ, task = .drain y → n.session? y = some σ → σ.input ≠ s) :
    (n.perform task).source? s = n.source? s := by
  cases task with
  | request r =>
    refine source?_grant ?_ ?_
    · rintro text rfl
      exact hpush text rfl
    · rintro rfl
      exact hclose rfl
  | tellInput t k text => exact source?_tellInput t k text
  | tellOutput y k items => exact source?_tellOutput y k items
  | emit y item => exact source?_emit y item
  | close y => rfl
  | drain y => exact source?_drain_of_ne fun σ => hdrain y σ rfl
  | proceed y replays => rfl
  | finish y status => exact source?_finish y status
  | release y => rfl

/-! ### Moves -/

theorem source?_drain_self (hσ : n.session? x = some σ) (hsource : n.source? σ.input = some source)
    (hlive : σ.status.isLive = true) (hcancelled : σ.cancelled = false) {move : Move τ π}
    (hmove : σ.engine.move n.lexer.rules n.lexer.config ⟨source, σ.reader⟩ = move) :
    (n.drain x).source? σ.input = some (move.sourceAfter source) := by
  have hpulls : ∀ feed : Feed Char,
      (n.modifySource σ.input fun _ => feed.source).source? σ.input = some feed.source := by
    intro feed
    rw [source?_modifySource_self, hsource]
    rfl
  simp only [drain, hσ, hlive, hcancelled, hsource, Option.getD_some, hmove, Bool.not_true,
    Bool.false_eq_true, if_false]
  cases move with
  | rest => exact hsource
  | read engine feed => exact hpulls feed
  | fire firing engine replays => exact hsource
  | last firing engine => exact hsource
  | fail error feed => exact hpulls feed

/-- The next move of a session that is not cancelled is one step of its run, and unless it settles
the run, another move is to come. -/
theorem Turn.foldl_carry_drain (h : Turn n x σ (.drain x) σ' added)
    (hlive : σ.status.isLive = true) (hcancelled : σ.cancelled = false)
    (hsource : (n.source? σ.input).getD .fresh = source) :
    (Task.own x added).foldl Task.carry (σ'.alone ((σ.engine.move n.lexer.rules n.lexer.config
        ⟨source, σ.reader⟩).sourceAfter source)) = (σ.alone source).step n.lexer ∧
      ((∃ task ∈ Task.own x added, task.Resumes) ∨
        ((σ.alone source).step n.lexer).Settled n.lexer) := by
  subst hsource
  cases h with
  | elsewhere howner => exact (howner rfl).elim
  | halts hstopped =>
    rw [hstopped] at hlive
    cases hlive
  | heeds _ h =>
    rw [hcancelled] at h
    cases h
  | rests _ _ hmove =>
    have hrest : (σ.alone ((n.source? σ.input).getD .fresh)).step n.lexer =
        σ.alone ((n.source? σ.input).getD .fresh) := SoloRun.step_of_rest hmove
    rw [hrest, hmove, Task.own_cons rfl]
    exact ⟨rfl, .inr fun _ => hmove⟩
  | @reads engine feed _ _ hmove =>
    have hread : (σ.alone ((n.source? σ.input).getD .fresh)).step n.lexer =
        ⟨engine, feed, σ.output, σ.status.afterRead engine.replaying⟩ := by
      simp only [SoloRun.step, Session.alone, hmove]
    rw [hread, hmove, Task.own_cons rfl]
    exact ⟨rfl, .inl ⟨.drain x, List.mem_cons_self, trivial⟩⟩
  | @fires firing engine replays _ _ hmove =>
    have hfire : (σ.alone ((n.source? σ.input).getD .fresh)).step n.lexer =
        ⟨engine, ⟨(n.source? σ.input).getD .fresh, σ.reader⟩,
          SoloRun.applyEffects σ.output firing.effects, σ.status.afterFire replays⟩ := by
      simp only [SoloRun.step, Session.alone, hmove]
    rw [hfire, hmove, Task.own_append, List.foldl_append, Task.foldl_carry_effects,
      Task.own_cons rfl]
    exact ⟨rfl, .inl ⟨.proceed x replays, List.mem_append_right _ List.mem_cons_self, trivial⟩⟩
  | @ends firing engine _ _ hmove =>
    have hlast : (σ.alone ((n.source? σ.input).getD .fresh)).step n.lexer =
        SoloRun.stop ⟨engine, ⟨(n.source? σ.input).getD .fresh, σ.reader⟩,
          SoloRun.applyEffects σ.output firing.effects, σ.status⟩ .terminated := by
      simp only [SoloRun.step, Session.alone, hmove]
    rw [hlast, hmove, Task.own_append, List.foldl_append, Task.foldl_carry_effects,
      Task.own_cons rfl]
    exact ⟨rfl, .inr (SoloRun.settled_of_stopped rfl)⟩
  | @fails error feed _ _ hmove =>
    have hfail : (σ.alone ((n.source? σ.input).getD .fresh)).step n.lexer =
        SoloRun.stop ⟨σ.engine, feed, σ.output, σ.status⟩ (.failed error) := by
      simp only [SoloRun.step, Session.alone, hmove]
    rw [hfail, hmove, Task.own_cons rfl]
    exact ⟨rfl, .inr (SoloRun.settled_of_stopped rfl)⟩

/-- The same for a session on a source that is there. -/
theorem Turn.ahead_drain (h : Turn n x σ (.drain x) σ' added) (hσ : n.session? x = some σ)
    (hsource : n.source? σ.input = some source) (hlive : σ.status.isLive = true)
    (hcancelled : σ.cancelled = false) :
    ∃ source', (n.drain x).source? σ.input = some source' ∧
      (Task.own x added).foldl Task.carry (σ'.alone source') = (σ.alone source).run n.lexer 1 ∧
      ((∃ task ∈ Task.own x added, task.Resumes) ∨
        ((σ.alone source).run n.lexer 1).Settled n.lexer) := by
  have hstep : (σ.alone source).run n.lexer 1 = (σ.alone source).step n.lexer :=
    SoloRun.run_succ hlive 0
  have hgiven : (n.source? σ.input).getD .fresh = source := by
    rw [hsource, Option.getD_some]
  rw [hstep]
  exact ⟨_, source?_drain_self hσ hsource hlive hcancelled rfl,
    h.foldl_carry_drain hlive hcancelled hgiven⟩

end Network

end DerivativeLexer
