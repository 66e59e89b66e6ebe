import DerivativeLexer.Proofs.Session.Moving
import DerivativeLexer.Proofs.Session.Patience

/-! # Calls end

Where actions push nothing, every call ends, whoever listens. Listeners may push, but have only so
much patience; what they have pushed by then is a text of some length, and on that the sessions
have only so many moves left; and between two moves every task causes lighter ones at most. -/

namespace DerivativeLexer

variable {τ π : Type}

/-- No action pushes anything to a source. An action may close one. -/
def RuleTable.PushesNothing (t : RuleTable τ π) : Prop :=
  ∀ state, ∀ rule ∈ t.rules state, ∀ matched payloads s text,
    .request (.push s text) ∉ (rule.action.perform matched payloads).2.effects

def Task.pushes : Task τ → Bool
  | .request (.source (.push _ _)) => true
  | _ => false

/-- The moves that are left to an engine at most, if its text ends at the offset `stop`. -/
def Engine.movesLeft (e : Engine π) (stop : Nat) : Nat :=
  (stop - e.matching.start.offset) * (stop - e.matching.start.offset + 1) +
    (stop - e.position.offset)

namespace Network

/-- Number of characters that wait in a source. -/
def queued (n : Network τ π) (s : Nat) : Nat := ((n.source? s).getD .fresh).queue.length

/-- Number of pushes that are asked for. -/
def pending (n : Network τ π) : Nat := n.agenda.countP Task.pushes

/-- Number of subscribers to a source. -/
def audience (n : Network τ π) (s : Nat) : Nat := n.inputs[s]?.elim 0 (·.subscribers.length)

/-- What a task causes besides moves and pushes weighs less than the task itself. -/
def weight (n : Network τ π) : Task τ → Nat
  | .request (.source (.push _ _)) => 0
  | .request (.source (.close s)) => 3 * n.audience s + 1
  | .request (.cancel _) => 3
  | task => task.weight

def load (n : Network τ π) : Nat := (n.agenda.map n.weight).sum

/-- Every session `y` has less than `K y` moves left. -/
def Paced (n : Network τ π) (K : Nat → Nat) : Prop :=
  ∀ y σ, n.session? y = some σ → n.Works y σ →
    σ.engine.movesLeft (σ.reader.reach + n.queued σ.input) < K y

end Network

section

variable {l : Lexer τ π} {n n' : Network τ π} {s x y : Nat} {σ σ' : Session τ π} {task : Task τ}
  {rest added : List (Task τ)} {f g : Feed Char} {e : Engine π} {K : Nat → Nat}

/-! ### Moves that are left -/

theorem Engine.movesLeft_mono {stop stop' : Nat} (h : stop ≤ stop') :
    e.movesLeft stop ≤ e.movesLeft stop' := by
  have hle : stop - e.matching.start.offset ≤ stop' - e.matching.start.offset := by omega
  refine Nat.add_le_add (Nat.mul_le_mul hle (Nat.succ_le_succ hle)) ?_
  omega

theorem Engine.Tracks.movesLeft_eq {t : RuleTable τ π} {read ahead : List Char}
    (h : Tracks t f e read ahead) :
    e.movesLeft (f.reader.reach + f.source.queue.length) + 1 = SoloRun.movesFor read ahead := by
  have htext := congrArg List.length h.text_eq
  have hoffset := h.position_offset
  have hstart := h.start_le
  rw [Feed.textFrom, Feed.text, List.length_drop, List.length_append, List.length_append,
    Array.length_toList] at htext
  have hall : f.reader.reach + f.source.queue.length - e.matching.start.offset =
      read.length + ahead.length := by
    rw [Reader.reach]
    omega
  have hahead : f.reader.reach + f.source.queue.length - e.position.offset = ahead.length := by
    omega
  rw [movesLeft, hall, hahead, SoloRun.movesFor]

theorem Feed.ReadsTo.stop_eq (h : f.ReadsTo g) :
    g.reader.reach + g.source.queue.length = f.reader.reach + f.source.queue.length ∧
      g.source.queue.length ≤ f.source.queue.length := by
  have htext := congrArg List.length h.text_eq
  have hstart := h.start_eq
  have hreach := h.reach_le
  simp only [Feed.text, List.length_append, Array.length_toList] at htext
  rw [Reader.reach, Reader.reach] at hreach ⊢
  omega

/-- A move that goes on and does not rest leaves fewer moves. -/
theorem Engine.Tracks.movesLeft_lt {read ahead : List Char}
    (h : Tracks l.rules f e read ahead) {move : Move τ π}
    (hmove : e.move l.rules l.config f = move) (hrest : move ≠ .rest) {e' : Engine π}
    (hgoes : move.goesOn? e = some e') :
    e'.movesLeft ((move.feedAfter f).reader.reach + (move.feedAfter f).source.queue.length) <
      e.movesLeft (f.reader.reach + f.source.queue.length) := by
  have hleft := h.movesLeft_eq
  have hexplains := explains_move l.config h
  rw [hmove] at hexplains
  cases hexplains with
  | rest => exact (hrest rfl).elim
  | @read c left _ f' hahead hreads htracks =>
    obtain rfl := Option.some.inj hgoes
    have hleft' := htracks.movesLeft_eq
    have hless := SoloRun.movesFor_read read c left
    subst hahead
    simp only [Move.feedAfter]
    omega
  | fire htext hwins hbeyond hfiring htracks =>
    obtain rfl := Option.some.inj hgoes
    have hleft' := htracks.movesLeft_eq
    have hless := SoloRun.movesFor_fire htext (by
      rintro rfl
      exact RuleTable.not_matches_nil l.productive _ _ hwins.1)
    simp only [Move.feedAfter]
    omega
  | last => cases hgoes
  | deadEnd => cases hgoes
  | tooLong => cases hgoes

/-! ### Text that waits -/

namespace Network

theorem queued_of_source?_eq (h : n'.source? s = n.source? s) : n'.queued s = n.queued s := by
  rw [queued, h, queued]

theorem queued_modifySource_le {t : Nat} {f : Source Char → Source Char}
    (h : (f ((n.source? t).getD .fresh)).queue.length ≤ n.queued t) :
    (n.modifySource t f).queued s ≤ n.queued s := by
  by_cases ht : t = s
  · subst ht
    rw [queued, source?_modifySource_self]
    cases hsource : n.source? t with
    | none => exact Nat.zero_le _
    | some source =>
      rw [hsource] at h
      exact h
  · rw [queued_of_source?_eq (source?_modifySource_of_ne ht f)]

theorem queued_drain_le (hplaced : ∀ σ, n.session? y = some σ → σ.status.isLive = true →
    Engine.Placed n.lexer.rules σ.reader σ.engine) : (n.drain y).queued s ≤ n.queued s := by
  unfold drain
  cases hσ : n.session? y with
  | none => exact Nat.le_refl _
  | some σ =>
    simp only
    split_ifs with hstopped
    · exact Nat.le_refl _
    · exact Nat.le_refl _
    · rw [Bool.not_eq_true', Bool.not_eq_false] at hstopped
      obtain ⟨read, ahead, htracks⟩ := (hplaced σ hσ hstopped).tracks
        (f := ⟨(n.source? σ.input).getD .fresh, σ.reader⟩)
      have hreads := (htracks.reads n.lexer.config).stop_eq.2
      cases hmove : σ.engine.move n.lexer.rules n.lexer.config
          ⟨(n.source? σ.input).getD .fresh, σ.reader⟩ with
      | rest => exact Nat.le_refl _
      | read engine feed =>
        rw [hmove] at hreads
        exact queued_modifySource_le (f := fun _ => feed.source) hreads
      | fire firing engine replays => exact Nat.le_refl _
      | last firing engine => exact Nat.le_refl _
      | fail error feed =>
        rw [hmove] at hreads
        exact queued_modifySource_le (f := fun _ => feed.source) hreads

/-- Only a push makes more text wait. -/
theorem queued_perform_le (hpush : task.pushes = false)
    (hplaced : ∀ y σ, task = .drain y → n.session? y = some σ → σ.status.isLive = true →
      Engine.Placed n.lexer.rules σ.reader σ.engine) :
    (n.perform task).queued s ≤ n.queued s := by
  by_cases hdrain : ∃ y, task = .drain y
  · obtain ⟨y, rfl⟩ := hdrain
    exact queued_drain_le fun σ => hplaced y σ rfl
  by_cases hclose : task = .request (.source (.close s))
  · subst hclose
    exact queued_modifySource_le (f := fun source => source.close) (Nat.le_refl _)
  refine Nat.le_of_eq (queued_of_source?_eq (source?_perform ?_ hclose ?_))
  · rintro text rfl
    cases hpush
  · rintro y σ rfl
    exact (hdrain ⟨y, rfl⟩).elim

theorem Reachable.queued_step_le (h : n.Reachable l) (hagenda : n.agenda = task :: rest)
    (hpush : task.pushes = false) (s : Nat) : n.step.queued s ≤ n.queued s := by
  have hstep : n.step = { n with agenda := rest }.perform task := by
    rw [step, hagenda]
  rw [hstep]
  refine queued_perform_le (n := { n with agenda := rest }) hpush ?_
  rintro y σ rfl hσ -
  have hstage := h.stage (x := y) (σ := σ) hσ
  rw [hagenda] at hstage
  obtain ⟨-, -, hreading⟩ := hstage.of_drain
  exact hreading.placed

/-! ### A step leaves no more moves than before -/

/-- A session that still works after its turn was a move has fewer moves left, or it rests. -/
theorem Turn.movesLeft_drain (hturn : Turn { n with agenda := rest } y σ (.drain y) σ' added)
    (hstage : Stage n.lexer y σ (.drain y :: rest)) (hnone : ∀ status, .finish y status ∉ added)
    {q : Nat}
    (hqueued : ∀ {move : Move τ π}, σ.engine.move n.lexer.rules n.lexer.config
        ⟨(n.source? σ.input).getD .fresh, σ.reader⟩ = move → σ.cancelled = false →
      q ≤ (move.feedAfter ⟨(n.source? σ.input).getD .fresh, σ.reader⟩).source.queue.length) :
    σ'.engine.movesLeft (σ'.reader.reach + q) <
        σ.engine.movesLeft (σ.reader.reach + n.queued σ.input) ∨
      (σ' = σ ∧ added = [.release y]) := by
  obtain ⟨-, -, hreading⟩ := hstage.of_drain
  obtain ⟨read, ahead, htracks⟩ := hreading.placed.tracks
    (f := ⟨(n.source? σ.input).getD .fresh, σ.reader⟩)
  have hless : σ.cancelled = false → ∀ {move : Move τ π}, σ.engine.move n.lexer.rules
      n.lexer.config ⟨(n.source? σ.input).getD .fresh, σ.reader⟩ = move → move ≠ .rest →
      ∀ {e : Engine π}, move.goesOn? σ.engine = some e →
      e.movesLeft ((move.feedAfter
        ⟨(n.source? σ.input).getD .fresh, σ.reader⟩).reader.reach + q) <
        σ.engine.movesLeft (σ.reader.reach + n.queued σ.input) := by
    intro hcancelled move hmove hrest e hgoes
    refine Nat.lt_of_le_of_lt ?_ (htracks.movesLeft_lt hmove hrest hgoes)
    exact Engine.movesLeft_mono (Nat.add_le_add_left (hqueued hmove hcancelled) _)
  cases hturn with
  | elsewhere howner => exact (howner rfl).elim
  | halts => exact .inr ⟨rfl, rfl⟩
  | heeds => exact (hnone _ List.mem_cons_self).elim
  | rests => exact .inr ⟨rfl, rfl⟩
  | reads _ hcancelled hmove => exact .inl (hless hcancelled hmove (fun h => nomatch h) rfl)
  | fires _ hcancelled hmove => exact .inl (hless hcancelled hmove (fun h => nomatch h) rfl)
  | ends =>
    exact (hnone _ (List.mem_append_right _ (List.mem_singleton_self _))).elim
  | fails => exact (hnone _ List.mem_cons_self).elim

theorem queued_drain_self (hσ : n.session? y = some σ) (hlive : σ.status.isLive = true)
    (hcancelled : σ.cancelled = false) {move : Move τ π}
    (hmove : σ.engine.move n.lexer.rules n.lexer.config
      ⟨(n.source? σ.input).getD .fresh, σ.reader⟩ = move) :
    (n.drain y).queued σ.input ≤
      (move.feedAfter ⟨(n.source? σ.input).getD .fresh, σ.reader⟩).source.queue.length := by
  cases hsource : n.source? σ.input with
  | some source =>
    rw [hsource, Option.getD_some] at hmove
    rw [queued, source?_drain_self hσ hsource hlive hcancelled hmove]
    cases move with
    | _ => exact Nat.le_refl _
  | none =>
    have hnone : (n.drain y).source? σ.input = none := by
      have hinputs := congrFun (congrArg Wiring.inputs (wiring_drain (n := n) y)) σ.input
      rw [source?, Option.map_eq_none_iff] at hsource ⊢
      simp only [wiring, hsource, Option.map_none, Option.map_eq_none_iff] at hinputs
      exact hinputs
    rw [queued, hnone]
    exact Nat.zero_le _

/-- What is left of a session that still works after a step that pushes nothing: it worked before,
it has not more moves left, and it has fewer if it made one and did not rest. -/
theorem Reachable.movesLeft_step (h : n.Reachable l) (hagenda : n.agenda = task :: rest)
    (hpush : task.pushes = false) (hσ : n.session? y = some σ)
    (hσ' : n.step.session? y = some σ') (hworks : n.step.Works y σ') :
    n.Works y σ ∧
      σ'.engine.movesLeft (σ'.reader.reach + n.step.queued σ'.input) ≤
        σ.engine.movesLeft (σ.reader.reach + n.queued σ.input) ∧
      (task = .drain y →
        σ'.engine.movesLeft (σ'.reader.reach + n.step.queued σ'.input) <
          σ.engine.movesLeft (σ.reader.reach + n.queued σ.input) ∨
        n.step.agenda = .release y :: rest) := by
  have hstep : n.step = { n with agenda := rest }.perform task := by
    rw [step, hagenda]
  have hstage := h.stage hσ
  rw [hagenda] at hstage
  obtain ⟨σ₁, added, hturn, hσ₁, hadded⟩ :=
    turns_perform (n := { n with agenda := rest }) (x := y) (σ := σ) hσ task
  rw [← hstep] at hσ₁ hadded
  obtain rfl := Option.some.inj (hσ₁.symm.trans hσ')
  have hnone : ∀ status, .finish y status ∉ added ∧ .finish y status ∉ rest := by
    intro status
    have hnone := hworks.2 status
    rw [hadded, List.mem_append, not_or] at hnone
    exact hnone
  have hqueued := h.queued_step_le hagenda hpush σ.input
  have hinput : σ₁.input = σ.input := hturn.input_eq
  rw [hinput]
  by_cases hdrain : task = .drain y
  · subst hdrain
    obtain ⟨hown, -, hreading⟩ := hstage.of_drain
    have hworks₀ : n.Works y σ :=
      works_of_task hagenda hreading.live (by simp) fun status => (hnone status).2
    have hleft := hturn.movesLeft_drain hstage (fun status => (hnone status).1)
      (q := n.step.queued σ.input) fun hmove hcancelled => by
        rw [hstep]
        exact queued_drain_self (n := { n with agenda := rest }) hσ hreading.live hcancelled hmove
    rcases hleft with hless | ⟨rfl, rfl⟩
    · exact ⟨hworks₀, Nat.le_of_lt hless, fun _ => .inl hless⟩
    · exact ⟨hworks₀, Engine.movesLeft_mono (Nat.add_le_add_left hqueued _), fun _ => .inr hadded⟩
  by_cases hfinish : ∃ status, task = .finish y status
  · obtain ⟨status, rfl⟩ := hfinish
    obtain ⟨-, -, -, hfinal, -⟩ := hstage.of_finish
    cases hturn with
    | elsewhere howner => exact (howner rfl).elim
    | finishes =>
      have hlive : status.isLive = true := hworks.1
      rw [hfinal.not_isLive] at hlive
      cases hlive
  · have hfinish' : ∀ status, task ≠ .finish y status := fun status heq => hfinish ⟨status, heq⟩
    obtain ⟨hengine, hreader, hlive, -, -⟩ := hturn.leaves hstage hdrain hfinish'
    refine ⟨works_of_task hagenda (hlive.symm.trans hworks.1) hfinish' fun status =>
      (hnone status).2, ?_, fun heq => (hdrain heq).elim⟩
    rw [hengine, hreader]
    exact Engine.movesLeft_mono (Nat.add_le_add_left hqueued _)

theorem exists_paced (n : Network τ π) : ∃ K, n.Paced K := by
  have hbound : ∀ y, ∃ k, ∀ σ, n.session? y = some σ → n.Works y σ →
      σ.engine.movesLeft (σ.reader.reach + n.queued σ.input) < k := by
    intro y
    cases hσ : n.session? y with
    | none => exact ⟨0, fun σ h => nomatch h⟩
    | some σ =>
      refine ⟨σ.engine.movesLeft (σ.reader.reach + n.queued σ.input) + 1, fun σ' hσ' _ => ?_⟩
      obtain rfl := Option.some.inj hσ'
      exact Nat.lt_succ_self _
  choose K hK using hbound
  exact ⟨K, hK⟩

theorem Reachable.paced_step (h : n.Reachable l) (hagenda : n.agenda = task :: rest)
    (hpush : task.pushes = false) (hpaced : n.Paced K) : n.step.Paced K := by
  intro z σ' hσ' hworks'
  obtain ⟨σ, hσ, -⟩ := session?_wiring wiring_step hσ'
  obtain ⟨hworks, hle, -⟩ := h.movesLeft_step hagenda hpush hσ hσ' hworks'
  exact Nat.lt_of_le_of_lt hle (hpaced z σ hσ hworks)

/-- A move leaves one move less, unless the session rests. -/
theorem Reachable.paced_drain (h : n.Reachable l) (hagenda : n.agenda = .drain y :: rest)
    (hpaced : n.Paced K) (hσ : n.session? y = some σ)
    (hrests : n.step.agenda ≠ .release y :: rest) :
    0 < K y ∧ n.step.Paced (Function.update K y (K y - 1)) := by
  have hpaced' := h.paced_step hagenda rfl hpaced
  have hstage := h.stage hσ
  rw [hagenda] at hstage
  obtain ⟨hown, -, hreading⟩ := hstage.of_drain
  have hworks : n.Works y σ := by
    refine ⟨hreading.live, fun status hmem => ?_⟩
    rw [hagenda] at hmem
    rcases List.mem_cons.1 hmem with hmem | hmem
    · cases hmem
    · exact finish_not_mem_of_own hown status hmem
  have hless := hpaced y σ hσ hworks
  refine ⟨Nat.zero_lt_of_lt hless, fun z σ' hσ' hworks' => ?_⟩
  by_cases hz : z = y
  · subst hz
    rw [Function.update_self]
    have hleft := ((h.movesLeft_step hagenda rfl hσ hσ' hworks').2.2 rfl).resolve_right hrests
    omega
  · rw [Function.update_of_ne hz]
    exact hpaced' z σ' hσ' hworks'

/-! ### What a task causes -/

theorem load_inputTellings (t : Nat) (text : List Char) :
    Task.load (n.inputTellings t text) = 3 * n.audience t := by
  unfold inputTellings audience
  cases n.inputs[t]? with
  | none => rfl
  | some i =>
    simp only [Task.load, List.map_map, Function.comp_def, Task.weight, List.map_const',
      List.length_range, List.sum_replicate_nat, Option.elim_some]
    exact Nat.mul_comm _ _

theorem lighter_or_impatient (hdrain : ∀ y, task ≠ .drain y) (hpush : task.pushes = false) :
    (n.perform task).patience < n.patience ∨ Lighter (n.weight task) n (n.perform task) := by
  cases task with
  | request r =>
    cases r with
    | source r =>
      cases r with
      | push t text => cases hpush
      | close t =>
        refine .inr (lighter_schedule rfl (fun q hq => ?_) ?_)
        · obtain ⟨k, hk⟩ := mem_inputTellings hq
          cases hk
        · rw [load_inputTellings]
          exact Nat.lt_succ_self _
    | cancel x => exact .inr (lighter_wake x)
  | tellInput t k text => exact (tellInput_cases t k text).imp id And.right
  | tellOutput x k items => exact (tellOutput_cases x k items).imp id And.right
  | emit x item => exact .inr (lighter_emit x item)
  | close x => exact .inr (lighter_outputTellings rfl x [])
  | drain x => exact (hdrain x rfl).elim
  | proceed x replays =>
    exact .inr (lighter_single rfl (fun q hq => nomatch hq) (Nat.lt_succ_self 2))
  | finish x status => exact .inr (lighter_finish x status)
  | release x => exact .inr (lighter_of_eq 1 rfl)

/-! ### Who asks for what -/

/-- Tasks have been put in front of the agenda, and what one of them asks for has the property. -/
def Adds (n : Network τ π) (P : Request → Prop) (n' : Network τ π) : Prop :=
  ∃ added, n'.agenda = added ++ n.agenda ∧ ∀ q, .request q ∈ added → P q

variable {P : Request → Prop}

theorem adds_of_eq (h : n'.agenda = n.agenda) : n.Adds P n' :=
  ⟨[], h, by rintro q ⟨⟩⟩

theorem adds_own (h : n'.agenda = task :: n.agenda) (howner : task.owner? = some y) :
    n.Adds P n' := by
  refine ⟨[task], h, fun q hq => ?_⟩
  rw [← List.mem_singleton.1 hq] at howner
  cases howner

theorem adds_fired (hactions : ∀ state, ∀ rule ∈ n.lexer.rules.rules state, ∀ matched payloads r,
      .request r ∈ (rule.action.perform matched payloads).2.effects → P (.source r))
    {firing : Firing τ π} (hfires : n.lexer.rules.Fires firing) (howner : task.owner? = some y)
    (h : n'.agenda = firing.effects.map (effectTask y) ++ [task] ++ n.agenda) : n.Adds P n' := by
  refine ⟨_, h, fun q hq => ?_⟩
  rcases List.mem_append.1 hq with hq | hq
  · obtain ⟨state, rule, matched, payloads, hrule, heffects⟩ := hfires.exists_rule
    obtain ⟨effect, heffect, htask⟩ := List.mem_map.1 hq
    cases effect with
    | emit item => cases htask
    | close => cases htask
    | request r =>
      rw [heffects] at heffect
      rw [← Task.request.inj htask]
      exact hactions state rule hrule matched payloads r heffect
  · rw [← List.mem_singleton.1 hq] at howner
    cases howner

/-- A move asks for nothing but what actions ask for. -/
theorem adds_drain (hactions : ∀ state, ∀ rule ∈ n.lexer.rules.rules state, ∀ matched payloads r,
      .request r ∈ (rule.action.perform matched payloads).2.effects → P (.source r)) (y : Nat) :
    n.Adds P (n.drain y) := by
  unfold drain
  cases n.session? y with
  | none => exact adds_of_eq rfl
  | some σ =>
    simp only
    split_ifs
    · exact adds_own rfl rfl
    · exact adds_own rfl rfl
    · cases hmove : σ.engine.move n.lexer.rules n.lexer.config
          ⟨(n.source? σ.input).getD .fresh, σ.reader⟩ with
      | rest => exact adds_own rfl rfl
      | read engine feed => exact adds_own rfl rfl
      | fire firing engine replays =>
        exact adds_fired hactions (Engine.fires_move (by rw [hmove]; rfl)) rfl rfl
      | last firing engine =>
        exact adds_fired hactions (Engine.fires_move (by rw [hmove]; rfl)) rfl rfl
      | fail error feed => exact adds_own rfl rfl

theorem pending_drain (ht : n.lexer.rules.PushesNothing) (y : Nat) :
    (n.drain y).pending = n.pending := by
  obtain ⟨added, hadded, hnone⟩ := adds_drain (n := n)
    (P := fun q => (Task.request q : Task τ).pushes = false) (fun state rule hrule matched
      payloads r hr => by
        cases r with
        | push t text => exact (ht state rule hrule matched payloads t text hr).elim
        | close t => rfl) y
  have hzero : added.countP Task.pushes = 0 := by
    refine List.countP_eq_zero.2 fun task htask => ?_
    cases task with
    | request q =>
      rw [hnone q htask]
      exact Bool.false_ne_true
    | _ => exact Bool.false_ne_true
  rw [pending, hadded, List.countP_append, hzero, Nat.zero_add, pending]

/-! ### Every step wears something down -/

/-- Something of which there is only so much has become less. -/
inductive Wanes (n : Network τ π) (K : Nat → Nat) (n' : Network τ π) : Prop
  | patience (hpatience : n'.patience < n.patience) : Wanes n K n'
  | pushes (hpatience : n'.patience ≤ n.patience) (hpending : n'.pending < n.pending) :
      Wanes n K n'
  | moves (hpatience : n'.patience ≤ n.patience) (hpending : n'.pending ≤ n.pending) {y : Nat}
      (hy : y < n.sessions.size) (hpos : 0 < K y)
      (hpaced : n'.Paced (Function.update K y (K y - 1))) : Wanes n K n'
  | tasks (hpatience : n'.patience ≤ n.patience) (hpending : n'.pending ≤ n.pending)
      (hpaced : n'.Paced K) (hload : n'.load < n.load ∨
        (n'.load ≤ n.load ∧ n'.agenda.length < n.agenda.length)) : Wanes n K n'

theorem weight_of_wiring_eq (h : n'.wiring = n.wiring) : n'.weight = n.weight := by
  have haudience : ∀ t, n'.audience t = n.audience t := by
    intro t
    have hinputs := congrArg (Option.elim · 0 List.length) (congrFun (congrArg Wiring.inputs h) t)
    simp only [wiring] at hinputs
    unfold audience
    cases hn' : n'.inputs[t]? with
    | _ =>
      cases hn : n.inputs[t]? with
      | _ => simp_all
  funext task
  cases task with
  | request r =>
    cases r with
    | source r =>
      cases r with
      | push t text => rfl
      | close t => rw [weight, weight, haudience]
    | cancel x => rfl
  | _ => rfl

theorem sum_weight_of_no_request (h : ∀ q, .request q ∉ added) :
    (added.map n.weight).sum = Task.load added := by
  refine congrArg List.sum (List.map_congr_left fun task htask => ?_)
  cases task with
  | request q => exact (h q htask).elim
  | _ => rfl

theorem countP_pushes_of_no_request (h : ∀ q, .request q ∉ added) :
    added.countP Task.pushes = 0 := by
  refine List.countP_eq_zero.2 fun task htask => ?_
  cases task with
  | request q => exact (h q htask).elim
  | _ => exact Bool.false_ne_true

theorem Wanes.of_lighter (hagenda : n.agenda = task :: rest)
    (hpatience : n'.patience ≤ n.patience) (hwiring : n'.wiring = n.wiring)
    (hpaced : n'.Paced K) (hlighter : Lighter (n.weight task) { n with agenda := rest } n') :
    Wanes n K n' := by
  obtain ⟨added, hadded, hnone, hless⟩ := hlighter
  have hadded' : n'.agenda = added ++ rest := hadded
  have hload : n'.load = Task.load added + (rest.map n.weight).sum := by
    rw [load, hadded', weight_of_wiring_eq hwiring, List.map_append, List.sum_append,
      sum_weight_of_no_request hnone]
  have hload₀ : n.load = n.weight task + (rest.map n.weight).sum := by
    rw [load, hagenda, List.map_cons, List.sum_cons]
  have hpending : n'.pending ≤ n.pending := by
    rw [pending, pending, hadded', hagenda, List.countP_append, countP_pushes_of_no_request hnone,
      Nat.zero_add]
    rw [List.countP_cons]
    exact Nat.le_add_right _ _
  refine .tasks hpatience hpending hpaced ?_
  rcases hless with rfl | hless
  · right
    rw [hload, hload₀, hadded', hagenda]
    exact ⟨Nat.add_le_add_right (Nat.zero_le _) _, Nat.lt_succ_self _⟩
  · left
    rw [hload, hload₀]
    exact Nat.add_lt_add_right hless _

theorem pending_lt_of_push (hagenda : n.agenda = task :: rest) (hpush : task.pushes = true) :
    n.step.pending < n.pending := by
  have hstep : n.step = { n with agenda := rest }.perform task := by
    rw [step, hagenda]
  have hpending : n.pending = rest.countP Task.pushes + 1 := by
    rw [pending, hagenda, List.countP_cons_of_pos hpush]
  have htellings : ∀ (m : Network τ π) t text, (m.inputTellings t text).countP Task.pushes = 0 := by
    intro m t text
    refine List.countP_eq_zero.2 fun other hother => ?_
    obtain ⟨k, rfl⟩ := mem_inputTellings hother
    exact Bool.false_ne_true
  rw [hpending, hstep, Nat.lt_succ_iff]
  cases task with
  | request r =>
    cases r with
    | source r =>
      cases r with
      | push t text =>
        simp only [perform, grant]
        cases source? { n with agenda := rest } t with
        | none => exact Nat.le_refl _
        | some source =>
          simp only
          split_ifs
          · exact Nat.le_refl _
          · rw [pending, schedule, List.countP_append, htellings, Nat.zero_add]
            exact Nat.le_refl _
      | close t => cases hpush
    | cancel x => cases hpush
  | _ => cases hpush

theorem Reachable.wanes (h : n.Reachable l) (ht : l.rules.PushesNothing) (hpaced : n.Paced K)
    (hagenda : n.agenda = task :: rest) : Wanes n K n.step := by
  have hstep : n.step = { n with agenda := rest }.perform task := by
    rw [step, hagenda]
  have hpatience : n.step.patience ≤ n.patience := by
    rw [hstep]
    exact patience_perform (n := { n with agenda := rest }) task
  cases hpush : task.pushes with
  | true => exact .pushes hpatience (pending_lt_of_push hagenda hpush)
  | false =>
    have hpaced' := h.paced_step hagenda hpush hpaced
    by_cases hdrain : ∃ y, task = .drain y
    · obtain ⟨y, rfl⟩ := hdrain
      cases hσ : n.session? y with
      | none =>
        have hidle : n.step = { n with agenda := rest } := by
          have hσ' : { n with agenda := rest }.session? y = none := hσ
          rw [hstep, perform, drain, hσ']
        exact .of_lighter hagenda hpatience wiring_step hpaced' (lighter_of_eq _ (by rw [hidle]))
      | some σ =>
        by_cases hrests : n.step.agenda = .release y :: rest
        · refine .of_lighter hagenda hpatience wiring_step hpaced' ⟨[.release y], hrests, ?_, ?_⟩
          · intro q hq
            cases List.mem_singleton.1 hq
          · exact .inr (Nat.lt_succ_self 1)
        · obtain ⟨hpos, hpaced''⟩ := h.paced_drain hagenda hpaced hσ hrests
          refine .moves hpatience ?_ (lt_size_of_session? hσ) hpos hpaced''
          have ht' : n.lexer.rules.PushesNothing := by
            rw [h.lexer_eq]
            exact ht
          rw [hstep, perform, pending_drain (n := { n with agenda := rest }) ht', pending, pending,
            hagenda, List.countP_cons]
          exact Nat.le_add_right _ _
    · rcases lighter_or_impatient (n := { n with agenda := rest })
          (fun y hy => hdrain ⟨y, hy⟩) hpush with hless | hlighter
      · refine .patience ?_
        rw [hstep]
        exact hless
      · refine .of_lighter hagenda hpatience wiring_step hpaced' ?_
        rw [hstep]
        exact hlighter

theorem lex_of_le {α : Type} {r : α → α → Prop} {a a' : Nat} {b b' : α} (h : a' ≤ a)
    (hr : r b' b) : Prod.Lex (· < ·) r (a', b') (a, b) := by
  rcases Nat.lt_or_eq_of_le h with hlt | rfl
  · exact .left _ _ hlt
  · exact .right _ hr

theorem Reachable.settles_paced {n : Network τ π} {K : Nat → Nat} (h : n.Reachable l)
    (ht : l.rules.PushesNothing) (hpaced : n.Paced K) : ∃ fuel, (n.settle fuel).agenda = [] := by
  cases hagenda : n.agenda with
  | nil => exact ⟨0, hagenda⟩
  | cons task rest =>
    have hsize : n.step.sessions.size = n.sessions.size := size_of_wiring_eq wiring_step
    have hreachable : n.step.Reachable l := by
      obtain ⟨task', hruns⟩ := runs_step (n := n) (by rw [hagenda]; exact List.cons_ne_nil _ _)
      exact h.runs hruns
    obtain ⟨K', hpaced', hless⟩ : ∃ K', n.step.Paced K' ∧
        Prod.Lex (· < ·) (Prod.Lex (· < ·) (Prod.Lex (· < ·) (Prod.Lex (· < ·) (· < ·))))
          (n.step.patience, n.step.pending, movesLeft n.step.sessions.size K', n.step.load,
            n.step.agenda.length)
          (n.patience, n.pending, movesLeft n.sessions.size K, n.load, n.agenda.length) := by
      rw [hsize]
      cases h.wanes ht hpaced hagenda with
      | patience hpatience =>
        obtain ⟨K', hpaced'⟩ := n.step.exists_paced
        exact ⟨K', hpaced', .left _ _ hpatience⟩
      | pushes hpatience hpending =>
        obtain ⟨K', hpaced'⟩ := n.step.exists_paced
        exact ⟨K', hpaced', lex_of_le hpatience (.left _ _ hpending)⟩
      | moves hpatience hpending hy hpos hpaced' =>
        refine ⟨_, hpaced', lex_of_le hpatience (lex_of_le hpending (.left _ _ ?_))⟩
        exact movesLeft_update hy hpos
      | tasks hpatience hpending hpaced' hload =>
        refine ⟨K, hpaced', lex_of_le hpatience (lex_of_le hpending (.right _ ?_))⟩
        rcases hload with hload | ⟨hload, hlength⟩
        · exact .left _ _ hload
        · exact lex_of_le hload hlength
    obtain ⟨fuel, hfuel⟩ := hreachable.settles_paced ht hpaced'
    refine ⟨fuel + 1, ?_⟩
    rw [settle, hagenda]
    exact hfuel
termination_by (n.patience, n.pending, movesLeft n.sessions.size K, n.load, n.agenda.length)
decreasing_by exact hless

/-- Where actions push nothing, every call ends, whoever listens. -/
theorem Reachable.settles (h : n.Reachable l) (ht : l.rules.PushesNothing) :
    ∃ fuel, (n.settle fuel).agenda = [] := by
  obtain ⟨K, hpaced⟩ := n.exists_paced
  exact h.settles_paced ht hpaced

end Network

end

end DerivativeLexer
