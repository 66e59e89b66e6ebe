import DerivativeLexer.Proofs.Lexer.Tiling
import DerivativeLexer.Proofs.Session.Growing

/-! # The moves of a session

Of everything that happens in a network only some tasks are moves of a given session. If nobody
else reads its source, these moves are those of an engine by itself, on a text that grows whenever
somebody adds to the source. So what is true of every such engine is true of the session in every
run, whatever else happens meanwhile. -/

namespace DerivativeLexer

variable {τ π : Type}

/-- All that a feed has to hand out, as a source that nobody has read from. -/
def Feed.whole (f : Feed Char) : Source Char := ⟨f.text, f.reader.start, f.source.closed⟩

/-- What comes to the source `s` while things happen, if nobody reads from it. -/
def Event.delivered (s : Nat) (whole : Source Char) (trace : List (Event τ)) : Source Char :=
  trace.foldl (fun total e => e.feed s total) whole

namespace Network

/-- The move that a session makes if it is its turn, unless it has stopped or was cancelled. -/
def nextMove? (n : Network τ π) (x : Nat) : Option (Move τ π) :=
  (n.session? x).bind fun σ =>
    if σ.status.isLive && !σ.cancelled then
      some (σ.engine.move n.lexer.rules n.lexer.config
        ⟨(n.source? σ.input).getD .fresh, σ.reader⟩)
    else none

/-- The move of a session that the event is, if it is one. -/
def move? (n : Network τ π) (x : Nat) : Event τ → Option (Move τ π)
  | .task (.drain y) _ => if y = x then n.nextMove? x else none
  | _ => none

/-- What happens one after the other, and the moves that a session makes meanwhile. -/
inductive Moved (n : Network τ π) (x : Nat) :
    List (Event τ) → List (Move τ π) → Network τ π → Prop
  | refl : Moved n x [] [] n
  | snoc {trace : List (Event τ)} {moves : List (Move τ π)} {m m' : Network τ π} {e : Event τ}
      (h : Moved n x trace moves m) (hnext : m.Happens e m') :
      Moved n x (trace ++ [e]) (moves ++ (m.move? x e).toList) m'

/-- A session is launched at `k` on a source that nobody else reads. The feed is what it has to
read by then. -/
structure Launches (l : Lexer τ π) (n : Network τ π) (s k : Nat) (feed : Feed Char) : Prop where
  reachable : n.Reachable l
  agenda_eq : n.agenda = []
  source_eq : n.source? s = some feed.source
  readers : ∀ y ρ, n.session? y = some ρ → ρ.input ≠ s
  reached : feed.Reached k

/-- The session is live, and how it will end is not settled. -/
def Works (n : Network τ π) (x : Nat) (σ : Session τ π) : Prop :=
  σ.status.isLive = true ∧ ∀ status, .finish x status ∉ n.agenda

/-- The session has ended, or will end, because the rule that reads the end of its input fired. -/
def Ends (n : Network τ π) (x : Nat) (σ : Session τ π) : Prop :=
  σ.status = .terminated ∨ .finish x .terminated ∈ n.agenda

end Network

/-- What the moves of a session have come to. It alone reads the source `s`, to which `total` came
by now. -/
structure Follows (l : Lexer τ π) (s k x : Nat) (total : Source Char) (moves : List (Move τ π))
    (n : Network τ π) (σ : Session τ π) : Prop where
  input_eq : σ.input = s
  readers : ∀ y ρ, n.session? y = some ρ → y ≠ x → ρ.input ≠ s
  working : n.Works x σ → ∃ source, n.source? s = some source ∧
    (⟨source, σ.reader⟩ : Feed Char).Holds total ∧
    Course l k moves (some σ.engine) ⟨source, σ.reader⟩
  idle : ¬n.Works x σ → ∃ f, f.Holds total ∧ Course l k moves none f
  ended : n.Ends x σ → ∃ firing e, moves.getLast? = some (.last firing e)

section

variable {l : Lexer τ π} {n n' m : Network τ π} {s k x : Nat} {total source : Source Char}
  {moves : List (Move τ π)} {σ σ' : Session τ π} {task : Task τ} {rest added : List (Task τ)}
  {e : Event τ} {trace : List (Event τ)} {f : Feed Char} {now : Option (Engine π)}

/-! ### What a task does to a feed -/

def Feed.fed (s : Nat) (task : Task τ) (f : Feed Char) : Feed Char :=
  { f with source := task.feed s f.source }

theorem Feed.Holds.fed (h : f.Holds total) (s : Nat) (task : Task τ) :
    (f.fed s task).Holds (task.feed s total) := by
  rw [Feed.fed, Task.feed_eq, Task.feed_eq]
  cases task.growth? s with
  | none => exact h
  | some growth => exact h.grow growth.1 growth.2

theorem Course.fed (h : Course l k moves now f) (s : Nat) (task : Task τ) :
    Course l k moves now (f.fed s task) := by
  rw [Feed.fed, Task.feed_eq]
  cases task.growth? s with
  | none => exact h
  | some growth => exact h.grow growth.1 growth.2

namespace Network

/-- A task that is no move of the only reader of a source leaves the source to those who add to
it. -/
theorem Happens.source?_fed {asked : List Request} (hnext : n.Happens (.task task asked) n')
    (hreaders : ∀ y ρ, n.session? y = some ρ → y ≠ x → ρ.input ≠ s) (hdrain : task ≠ .drain x)
    (hsource : n.source? s = some source) : n'.source? s = some (task.feed s source) := by
  obtain ⟨rest, hagenda⟩ : ∃ rest, n.agenda = task :: rest := by
    cases hnext with
    | task hagenda hasked => exact ⟨_, hagenda⟩
  refine (hnext.perform hagenda).1.trans ?_
  rw [Task.feed_eq]
  cases hgrowth : task.growth? s with
  | some growth =>
    exact (perform_growth (n := { n with agenda := rest }) hgrowth hsource).1
  | none =>
    refine (source?_perform (n := { n with agenda := rest }) ?_ ?_ ?_).trans hsource
    · rintro text rfl
      rw [Task.growth?, if_pos rfl] at hgrowth
      cases hgrowth
    · rintro rfl
      rw [Task.growth?, if_pos rfl] at hgrowth
      cases hgrowth
    · rintro y ρ rfl hρ
      refine hreaders y ρ hρ ?_
      rintro rfl
      exact hdrain rfl

theorem move?_of_ne (h : ∀ asked, e ≠ .task (.drain x) asked) : n.move? x e = none := by
  cases e with
  | task task asked =>
    cases task with
    | drain y =>
      rw [move?, if_neg]
      rintro rfl
      exact h asked rfl
    | _ => rfl
  | _ => rfl

theorem move?_drain {asked : List Request} (hσ : n.session? x = some σ)
    (hsource : n.source? σ.input = some source) (hlive : σ.status.isLive = true)
    (hcancelled : σ.cancelled = false) :
    n.move? x (.task (.drain x) asked) =
      some (σ.engine.move n.lexer.rules n.lexer.config ⟨source, σ.reader⟩) := by
  simp [move?, nextMove?, hσ, hsource, hlive, hcancelled]

theorem move?_drain_of_cancelled {asked : List Request} (hσ : n.session? x = some σ)
    (hcancelled : σ.cancelled = true) : n.move? x (.task (.drain x) asked) = none := by
  simp [move?, nextMove?, hσ, hcancelled]

/-! ### One event -/

theorem finish_not_mem (hforeign : ∀ task ∈ added, ¬task.About x) (status : SessionStatus) :
    .finish x status ∉ added := fun h => hforeign _ h (.inl rfl)

theorem finish_not_mem_of_own (hown : Task.own x rest = []) (status : SessionStatus) :
    .finish x status ∉ rest := by
  intro hmem
  rw [← Task.mem_own_iff (x := x) rfl, hown] at hmem
  cases hmem

theorem works_of_task (hagenda : n.agenda = task :: rest) (hlive : σ.status.isLive = true)
    (htask : ∀ status, task ≠ .finish x status) (hrest : ∀ status, .finish x status ∉ rest) :
    n.Works x σ := by
  refine ⟨hlive, fun status hmem => ?_⟩
  rw [hagenda] at hmem
  rcases List.mem_cons.1 hmem with hmem | hmem
  · exact htask status hmem.symm
  · exact hrest status hmem

theorem finish_not_mem_effects (effects : List (Effect τ)) (status : SessionStatus) :
    .finish x status ∉ effects.map (effectTask x) := by
  intro hmem
  obtain ⟨effect, -, heffect⟩ := List.mem_map.1 hmem
  cases effect with
  | _ => cases heffect

/-- What the tasks that are neither a move nor the end of a session leave of it. -/
theorem Turn.leaves (hturn : Turn n x σ task σ' added) (hstage : Stage n.lexer x σ (task :: rest))
    (hdrain : task ≠ .drain x) (hfinish : ∀ status, task ≠ .finish x status) :
    σ'.engine = σ.engine ∧ σ'.reader = σ.reader ∧ σ'.status.isLive = σ.status.isLive ∧
      (σ'.status = .terminated → σ.status = .terminated) ∧
      ∀ status, .finish x status ∉ added := by
  have hdrains : ∀ status, .finish x status ∉ [(.drain x : Task τ)] := by simp
  have htells : ∀ items status, .finish x status ∉ n.outputTellings x items := by
    intro items status hmem
    obtain ⟨k, hk⟩ := mem_outputTellings hmem
    cases hk
  cases hturn with
  | elsewhere _ _ _ _ hadded => exact ⟨rfl, rfl, rfl, id, finish_not_mem hadded⟩
  | flagged => exact ⟨rfl, rfl, rfl, id, by simp⟩
  | cancelled => exact ⟨rfl, rfl, rfl, id, hdrains⟩
  | woken => exact ⟨rfl, rfl, rfl, id, hdrains⟩
  | emits => exact ⟨rfl, rfl, rfl, id, htells _⟩
  | mute => exact ⟨rfl, rfl, rfl, id, by simp⟩
  | closes => exact ⟨rfl, rfl, rfl, id, htells _⟩
  | @proceeds replays =>
    obtain ⟨-, -, hlive, -⟩ := hstage.of_proceed
    have hlive' := SessionStatus.isLive_afterFire hlive replays
    refine ⟨rfl, rfl, hlive'.trans hlive.symm, fun hended => ?_, hdrains⟩
    have hstatus : σ.status.afterFire replays = .terminated := hended
    rw [hstatus] at hlive'
    cases hlive'
  | finishes => exact (hfinish _ rfl).elim
  | releases => exact ⟨rfl, rfl, rfl, id, by simp⟩
  | _ => exact (hdrain rfl).elim

end Network

namespace Follows

theorem of_working (hinput : σ.input = s)
    (hreaders : ∀ y ρ, n.session? y = some ρ → y ≠ x → ρ.input ≠ s)
    (hlive : σ.status.isLive = true) (hnone : ∀ status, .finish x status ∉ n.agenda)
    (hsource : n.source? s = some source) (hholds : (⟨source, σ.reader⟩ : Feed Char).Holds total)
    (hcourse : Course l k moves (some σ.engine) ⟨source, σ.reader⟩) :
    Follows l s k x total moves n σ where
  input_eq := hinput
  readers := hreaders
  working := fun _ => ⟨source, hsource, hholds, hcourse⟩
  idle := fun hover => (hover ⟨hlive, hnone⟩).elim
  ended := by
    rintro (hended | hended)
    · rw [hended] at hlive
      cases hlive
    · exact (hnone _ hended).elim

theorem of_over (hinput : σ.input = s)
    (hreaders : ∀ y ρ, n.session? y = some ρ → y ≠ x → ρ.input ≠ s) (hover : ¬n.Works x σ)
    (hholds : f.Holds total) (hcourse : Course l k moves none f)
    (hended : n.Ends x σ → ∃ firing e, moves.getLast? = some (.last firing e)) :
    Follows l s k x total moves n σ where
  input_eq := hinput
  readers := hreaders
  working := fun hworks => (hover hworks).elim
  idle := fun _ => ⟨f, hholds, hcourse⟩
  ended := hended

/-- Nothing happens to the session that matters. -/
theorem of_same (h : Follows l s k x total moves n σ) {total' : Source Char}
    (hreaders : ∀ y ρ, n'.session? y = some ρ → y ≠ x → ρ.input ≠ s)
    (hinput : σ'.input = σ.input) (hengine : σ'.engine = σ.engine) (hreader : σ'.reader = σ.reader)
    (hworks : n'.Works x σ' ↔ n.Works x σ) (hends : n'.Ends x σ' → n.Ends x σ) (task : Task τ)
    (htotal : total' = task.feed s total)
    (hsource : ∀ {source}, n.source? s = some source →
      n'.source? s = some (task.feed s source)) :
    Follows l s k x total' moves n' σ' where
  input_eq := hinput.trans h.input_eq
  readers := hreaders
  working := by
    intro hworks'
    obtain ⟨source, hsource', hholds, hcourse⟩ := h.working (hworks.1 hworks')
    rw [htotal, hengine, hreader]
    exact ⟨_, hsource hsource', hholds.fed s task, hcourse.fed s task⟩
  idle := by
    intro hover
    obtain ⟨f, hholds, hcourse⟩ := h.idle fun hworks' => hover (hworks.2 hworks')
    rw [htotal]
    exact ⟨_, hholds.fed s task, hcourse.fed s task⟩
  ended := fun hended => h.ended (hends hended)

theorem quiet {asked : List Request} (h : Follows l s k x total moves n σ)
    (hnext : n.Happens (.task task asked) n') (hstage : Stage n.lexer x σ n.agenda)
    (hagenda : n.agenda = task :: rest)
    (hturn : Network.Turn { n with agenda := rest } x σ task σ' added)
    (hadded : n'.agenda = added ++ rest) (hdrain : task ≠ .drain x)
    (hfinish : ∀ status, task ≠ .finish x status) :
    Follows l s k x (task.feed s total) moves n' σ' := by
  rw [hagenda] at hstage
  obtain ⟨hengine, hreader, hlive, hended, hnone⟩ := hturn.leaves hstage hdrain hfinish
  have hmem : ∀ status, .finish x status ∈ n'.agenda ↔ .finish x status ∈ n.agenda := by
    intro status
    have hne : .finish x status ≠ task := (hfinish status).symm
    rw [hadded, hagenda, List.mem_append, List.mem_cons, or_iff_right (hnone status),
      or_iff_right hne]
  refine h.of_same ?_ hturn.input_eq hengine hreader ?_ ?_ task rfl ?_
  · exact fun y ρ hρ hy => hnext.readers trivial (fun ρ hρ => h.readers y ρ hρ hy) hρ
  · simp only [Network.Works, hlive, hmem]
  · exact Or.imp hended (hmem _).1
  · exact hnext.source?_fed h.readers hdrain

theorem finish {asked : List Request} {status : SessionStatus}
    (h : Follows l s k x total moves n σ)
    (hnext : n.Happens (.task (.finish x status) asked) n') (hstage : Stage n.lexer x σ n.agenda)
    (hagenda : n.agenda = .finish x status :: rest)
    (hturn : Network.Turn { n with agenda := rest } x σ (.finish x status) σ' added)
    (hadded : n'.agenda = added ++ rest) :
    Follows l s k x total moves n' σ' := by
  rw [hagenda] at hstage
  obtain ⟨hown, -, -, hfinal, -⟩ := hstage.of_finish
  have hmem : .finish x status ∈ n.agenda := by
    rw [hagenda]
    exact List.mem_cons_self
  obtain ⟨f, hholds, hcourse⟩ := h.idle fun hworks => hworks.2 status hmem
  have hstatus : σ'.status = status := by
    cases hturn with
    | elsewhere howner => exact (howner rfl).elim
    | finishes => rfl
  refine
    { input_eq := hturn.input_eq.trans h.input_eq
      readers := fun y ρ hρ hy => hnext.readers trivial (fun ρ hρ => h.readers y ρ hρ hy) hρ
      working := fun hworks => ?_
      idle := fun _ => ⟨f, hholds, hcourse⟩
      ended := fun hended => h.ended (.inr ?_) }
  · have hlive := hworks.1
    rw [hstatus, hfinal.not_isLive] at hlive
    cases hlive
  · rcases hended with hended | hended
    · rw [← hended, hstatus]
      exact hmem
    · rw [hadded] at hended
      rcases List.mem_append.1 hended with hended | hended
      · cases hturn with
        | elsewhere howner => exact (howner rfl).elim
        | finishes =>
          split_ifs at hended
          · simp at hended
          · simp at hended
      · exact (Network.finish_not_mem_of_own hown _ hended).elim

/-- The move that a drain is, and what it leaves of the source and of what was done so far. -/
theorem move_of_drain {asked : List Request} {move : Move τ π}
    (hcourse : Course n.lexer k moves (some σ.engine) ⟨source, σ.reader⟩)
    (hholds : (⟨source, σ.reader⟩ : Feed Char).Holds total)
    (hnext : n.Happens (.task (.drain x) asked) n') (hagenda : n.agenda = .drain x :: rest)
    (hσ : n.session? x = some σ) (hinput : σ.input = s) (hsource : n.source? s = some source)
    (hlive : σ.status.isLive = true) (hcancelled : σ.cancelled = false)
    (hmove : σ.engine.move n.lexer.rules n.lexer.config
      ⟨(n.source? σ.input).getD .fresh, σ.reader⟩ = move) :
    n.move? x (.task (.drain x) asked) = some move ∧
      n'.source? s = some (move.sourceAfter source) ∧
      (move.feedAfter ⟨source, σ.reader⟩).Holds total ∧
      Course n.lexer k (moves ++ [move]) (move.goesOn? σ.engine)
        (move.feedAfter ⟨source, σ.reader⟩) := by
  subst hinput
  rw [hsource, Option.getD_some] at hmove
  have hdrained := Network.source?_drain_self (n := { n with agenda := rest }) hσ hsource hlive
    hcancelled hmove
  obtain ⟨read, ahead, htracks⟩ := (hcourse.cutsOff.2.2 _ rfl).tracks
  have hreads := htracks.reads n.lexer.config
  have hcourse' := hcourse.move
  rw [hmove] at hreads hcourse'
  refine ⟨?_, (hnext.perform hagenda).1.trans hdrained, hholds.reads hreads, hcourse'⟩
  rw [Network.move?_drain hσ hsource hlive hcancelled, hmove]

theorem drain {asked : List Request} (h : Follows n.lexer s k x total moves n σ)
    (hnext : n.Happens (.task (.drain x) asked) n') (hstage : Stage n.lexer x σ n.agenda)
    (hσ : n.session? x = some σ) (hagenda : n.agenda = .drain x :: rest)
    (hturn : Network.Turn { n with agenda := rest } x σ (.drain x) σ' added)
    (hadded : n'.agenda = added ++ rest) :
    Follows n.lexer s k x total (moves ++ (n.move? x (.task (.drain x) asked)).toList) n' σ' := by
  rw [hagenda] at hstage
  obtain ⟨hown, -, hreading⟩ := hstage.of_drain
  have hnone := Network.finish_not_mem_of_own hown
  obtain ⟨source, hsource, hholds, hcourse⟩ := h.working
    (Network.works_of_task hagenda hreading.live (by simp) hnone)
  have hreaders : ∀ y ρ, n'.session? y = some ρ → y ≠ x → ρ.input ≠ s :=
    fun y ρ hρ hy => hnext.readers trivial (fun ρ hρ => h.readers y ρ hρ hy) hρ
  have hnone' : (∀ status, .finish x status ∉ added) → ∀ status, .finish x status ∉ n'.agenda := by
    intro hnew status hmem
    rw [hadded] at hmem
    exact (List.mem_append.1 hmem).elim (hnew status) (hnone status)
  have hpending : ∀ {status}, .finish x status ∈ added → ¬n'.Works x σ' := by
    intro status hmem hworks
    refine hworks.2 status ?_
    rw [hadded]
    exact List.mem_append_left _ hmem
  -- a session that is to be cancelled or to fail has not come to the end of the input
  have hends : ∀ {status}, added = [.finish x status] → status ≠ .terminated →
      σ'.status = σ.status → ¬n'.Ends x σ' := by
    rintro status rfl hstatus hsame (hended | hended)
    · have hlive := hreading.live
      rw [← hsame, hended] at hlive
      cases hlive
    · rw [hadded] at hended
      rcases List.mem_cons.1 hended with hended | hended
      · exact hstatus (Task.finish.inj hended).2.symm
      · exact hnone _ hended
  cases hturn with
  | elsewhere howner => exact (howner rfl).elim
  | halts hstopped =>
    have hlive := hreading.live
    rw [hstopped] at hlive
    cases hlive
  | heeds hlive hcancelled =>
    rw [Network.move?_drain_of_cancelled hσ hcancelled, Option.toList_none, List.append_nil]
    exact .of_over h.input_eq hreaders (hpending List.mem_cons_self) hholds hcourse.giveUp
      fun hended => (hends rfl (by simp) rfl hended).elim
  | rests hlive hcancelled hmove =>
    obtain ⟨hmove?, hsource', hholds', hcourse'⟩ :=
      move_of_drain hcourse hholds hnext hagenda hσ h.input_eq hsource hlive hcancelled hmove
    rw [hmove?]
    exact .of_working h.input_eq hreaders hlive (hnone' (by simp)) hsource' hholds' hcourse'
  | reads hlive hcancelled hmove =>
    obtain ⟨hmove?, hsource', hholds', hcourse'⟩ :=
      move_of_drain hcourse hholds hnext hagenda hσ h.input_eq hsource hlive hcancelled hmove
    rw [hmove?]
    exact .of_working h.input_eq hreaders (SessionStatus.isLive_afterRead hlive _)
      (hnone' (by simp)) hsource' hholds' hcourse'
  | fires hlive hcancelled hmove =>
    obtain ⟨hmove?, hsource', hholds', hcourse'⟩ :=
      move_of_drain hcourse hholds hnext hagenda hσ h.input_eq hsource hlive hcancelled hmove
    rw [hmove?]
    refine .of_working h.input_eq hreaders hlive (hnone' fun status hmem => ?_) hsource' hholds'
      hcourse'
    rcases List.mem_append.1 hmem with hmem | hmem
    · exact Network.finish_not_mem_effects _ status hmem
    · simp at hmem
  | @ends firing engine hlive hcancelled hmove =>
    obtain ⟨hmove?, -, hholds', hcourse'⟩ :=
      move_of_drain hcourse hholds hnext hagenda hσ h.input_eq hsource hlive hcancelled hmove
    rw [hmove?]
    exact .of_over h.input_eq hreaders
      (hpending (List.mem_append_right _ (List.mem_singleton_self _))) hholds' hcourse'
      fun _ => ⟨firing, engine, List.getLast?_concat⟩
  | fails hlive hcancelled hmove =>
    obtain ⟨hmove?, -, hholds', hcourse'⟩ :=
      move_of_drain hcourse hholds hnext hagenda hσ h.input_eq hsource hlive hcancelled hmove
    rw [hmove?]
    exact .of_over h.input_eq hreaders (hpending List.mem_cons_self) hholds' hcourse'
      fun hended => (hends rfl (by simp) rfl hended).elim

theorem aside {listeners : List (Reaction τ)} (h : Follows l s k x total moves n σ)
    (hnext : n.Happens e n') (hspares : e.Spares s) (hevent : ∀ task asked, e ≠ .task task asked)
    (hadded : n'.agenda = added ++ n.agenda) (hforeign : ∀ task ∈ added, ¬task.About x) :
    Follows l s k x total moves n' { σ with listeners := listeners } := by
  have hmem : ∀ status, .finish x status ∈ n'.agenda ↔ .finish x status ∈ n.agenda := by
    intro status
    rw [hadded, List.mem_append, or_iff_right (Network.finish_not_mem hforeign status)]
  -- a task that tells nobody anything stands for what is no task
  refine h.of_same ?_ rfl rfl rfl ?_ ?_ (.release x) rfl ?_
  · exact fun y ρ hρ hy => hnext.readers hspares (fun ρ hρ => h.readers y ρ hρ hy) hρ
  · simp only [Network.Works, hmem]
  · exact Or.imp id (hmem _).1
  · exact hnext.source?_eq hevent hspares

/-- Whatever happens, the session has made the moves of an engine by itself. -/
theorem happens (h : Follows l s k x total moves n σ) (hreachable : n.Reachable l)
    (hnext : n.Happens e n') (hspares : e.Spares s) (hσ : n.session? x = some σ)
    (hpasses : Network.Passes n x σ e n' σ') :
    Follows l s k x (e.feed s total) (moves ++ (n.move? x e).toList) n' σ' := by
  have hstage := hreachable.stage hσ
  obtain rfl := hreachable.lexer_eq
  cases hpasses with
  | @turn task asked rest added _ hevent hagenda hturn hadded =>
    subst hevent
    by_cases hdrain : task = .drain x
    · subst hdrain
      exact h.drain hnext hstage hσ hagenda hturn hadded
    have hmove : n.move? x (.task task asked) = none := by
      refine Network.move?_of_ne fun asked' heq => hdrain ?_
      cases heq
      rfl
    rw [hmove, Option.toList_none, List.append_nil]
    by_cases hfinish : ∃ status, task = .finish x status
    · obtain ⟨status, rfl⟩ := hfinish
      exact h.finish hnext hstage hagenda hturn hadded
    · exact h.quiet hnext hstage hagenda hturn hadded hdrain fun status heq => hfinish ⟨status, heq⟩
  | aside hevent hadded hforeign _ =>
    rw [Absorbs.feed_eq_of_not_task hevent, Network.move?_of_ne fun asked => hevent _ asked,
      Option.toList_none, List.append_nil]
    exact h.aside hnext hspares hevent hadded hforeign

theorem course (h : Follows l s k x total moves n σ) :
    ∃ now f, Course l k moves now f ∧ f.Holds total := by
  by_cases hworks : n.Works x σ
  · obtain ⟨source, -, hholds, hcourse⟩ := h.working hworks
    exact ⟨_, _, hcourse, hholds⟩
  · obtain ⟨f, hholds, hcourse⟩ := h.idle hworks
    exact ⟨_, f, hcourse, hholds⟩

end Follows

/-! ### Runs -/

namespace Network

variable {feed : Feed Char}

theorem Moved.runs (h : n.Moved x trace moves m) : n.Runs trace m := by
  induction h with
  | refl => exact .refl
  | snoc _ hnext ih => exact ih.snoc hnext

theorem Runs.exists_moved (h : n.Runs trace m) (x : Nat) : ∃ moves, n.Moved x trace moves m := by
  induction h with
  | refl => exact ⟨[], .refl⟩
  | snoc _ hnext ih =>
    obtain ⟨moves, hmoved⟩ := ih
    exact ⟨_, hmoved.snoc hnext⟩

theorem Launches.follows (h : Launches l n s k feed) :
    Follows l s k n.sessions.size feed.whole [] (n.launch s k feed.reader)
      ⟨s, .start n.lexer.rules k, feed.reader, .fresh, [], .stepping, false, true⟩ := by
  rw [h.reachable.lexer_eq]
  refine .of_working rfl (fun y ρ hρ hy => ?_) rfl (fun status hmem => ?_) h.source_eq
    ⟨rfl, rfl, rfl⟩ (.start h.reached)
  · rcases session?_launch s k feed.reader hρ with hρ | ⟨hsize, -⟩
    · exact h.readers y ρ hρ
    · exact (hy hsize).elim
  · rw [launch, schedule, h.agenda_eq] at hmem
    simp at hmem

theorem Launches.runs (h : Launches l n s k feed) :
    (n.launch s k feed.reader).Reachable l ∧
      n.sessions.size < (n.launch s k feed.reader).sessions.size := by
  refine ⟨h.reachable.runs (.one (.launch s h.agenda_eq h.reached)), ?_⟩
  rw [launch, schedule, Array.size_push]
  exact Nat.lt_succ_self _

/-- Who is gone after an event has made no move by it. -/
theorem Happens.move?_eq_none (h : n.Happens e n') (hgone : n'.session? x = none) :
    n.move? x e = none := by
  cases hmove : n.move? x e with
  | none => rfl
  | some move =>
    exfalso
    cases e with
    | task task asked =>
      cases hσ : n.session? x with
      | none =>
        have hnone : n.move? x (.task task asked) = none := by
          cases task with
          | drain y => simp [move?, nextMove?, hσ]
          | _ => rfl
        rw [hnone] at hmove
        cases hmove
      | some σ =>
        obtain ⟨rest, σ', added, -, -, hσ', -⟩ := h.turn hσ
        rw [hgone] at hσ'
        cases hσ'
    | _ => cases hmove

/-- From its launch on a session makes the moves of an engine by itself, on all that comes to its
source. -/
theorem Launches.moved (h : Launches l n s k feed)
    (hmoved : (n.launch s k feed.reader).Moved n.sessions.size trace moves m)
    (hspares : ∀ e ∈ trace, e.Spares s) :
    (∃ now f, Course l k moves now f ∧ f.Holds (Event.delivered s feed.whole trace)) ∧
      ∀ σ, m.session? n.sessions.size = some σ →
        Follows l s k n.sessions.size (Event.delivered s feed.whole trace) moves m σ := by
  obtain ⟨hreachable, hsize⟩ := h.runs
  induction hmoved with
  | refl =>
    refine ⟨h.follows.course, fun σ hσ => ?_⟩
    obtain rfl := Option.some.inj (hσ.symm.trans (session?_launch_size s k feed.reader))
    exact h.follows
  | @snoc trace moves m m' e hbefore hnext ih =>
    obtain ⟨⟨now, f, hcourse, hholds⟩, hfollows⟩ :=
      ih fun e he => hspares e (List.mem_append_left _ he)
    have hspares' := hspares e (List.mem_append_right _ (List.mem_singleton_self e))
    have htotal : Event.delivered s feed.whole (trace ++ [e]) =
        e.feed s (Event.delivered s feed.whole trace) := by
      rw [Event.delivered, List.foldl_append]
      rfl
    rw [htotal]
    have hfollows' : ∀ σ, m'.session? n.sessions.size = some σ →
        Follows l s k n.sessions.size (e.feed s (Event.delivered s feed.whole trace))
          (moves ++ (m.move? n.sessions.size e).toList) m' σ := by
      intro σ' hσ'
      obtain ⟨σ, hσ, hpasses⟩ :=
        hnext.passes_before (hsize.trans_le hbefore.runs.size_le) hσ'
      exact (hfollows σ hσ).happens (hreachable.runs hbefore.runs) hnext hspares' hσ hpasses
    refine ⟨?_, hfollows'⟩
    cases hσ' : m'.session? n.sessions.size with
    | some σ' => exact (hfollows' σ' hσ').course
    | none =>
      rw [hnext.move?_eq_none hσ', Option.toList_none, List.append_nil]
      cases e with
      | task task asked => exact ⟨now, _, hcourse.fed s task, hholds.fed s task⟩
      | _ => exact ⟨now, f, hcourse, hholds⟩

end Network

end

end DerivativeLexer
