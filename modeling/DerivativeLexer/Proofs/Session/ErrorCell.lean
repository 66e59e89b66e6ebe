import DerivativeLexer.Proofs.Session.Moving

/-! # The error of a session

A session that fails or is cancelled writes its error into a cell and then sets its status. The
error is read off the status here, so the cell has no place in a session. It is followed beside the
network instead: what a move writes into it stays until the next one writes. The move that writes
is followed at once by the task that sets the status, and nobody is told anything in between. So
the cell and the status always say the same error, except right before that one task. -/

namespace DerivativeLexer

variable {τ π : Type}

/-- The error that a move ends a session with. -/
def Move.error? : Move τ π → Option LexError
  | .fail error _ => some error
  | _ => none

namespace Network

/-- The error that a session comes to if it is its turn. The cancellation is looked at before the
move is made. -/
def raised? (n : Network τ π) (x : Nat) : Option LexError :=
  (n.session? x).bind fun σ =>
    if σ.status.isLive && σ.cancelled then some .cancelled
    else (n.nextMove? x).bind Move.error?

/-- What an event writes into the error cell of a session. -/
def written? (n : Network τ π) (x : Nat) : Event τ → Option LexError
  | .task (.drain y) _ => if y = x then n.raised? x else none
  | _ => none

/-- What happens one after the other, and what the error cell of a session holds after it. -/
inductive Records (n : Network τ π) (x : Nat) :
    List (Event τ) → Option LexError → Network τ π → Prop
  | refl : Records n x [] none n
  | snoc {trace : List (Event τ)} {cell : Option LexError} {m m' : Network τ π} {e : Event τ}
      (h : Records n x trace cell m) (hnext : m.Happens e m') :
      Records n x (trace ++ [e]) ((m.written? x e).or cell) m'

end Network

/-- The error cell goes with the status that the session is to end with, or else with the status
that it has. -/
structure ErrorCell (x : Nat) (σ : Session τ π) (agenda : List (Task τ))
    (cell : Option LexError) : Prop where
  ending : ∀ status, .finish x status ∈ agenda → cell = status.error?
  settled : (∀ status, .finish x status ∉ agenda) → cell = σ.status.error?

section

variable {l : Lexer τ π} {n m : Network τ π} {x k : Nat} {σ σ' : Session τ π} {task : Task τ}
  {rest added agenda : List (Task τ)} {cell : Option LexError} {e : Event τ}
  {trace : List (Event τ)}

theorem SessionStatus.error?_of_isLive {status : SessionStatus} (hlive : status.isLive = true) :
    status.error? = none := by
  cases status with
  | stepping => rfl
  | backtracking => rfl
  | terminated => cases hlive
  | failed error => cases hlive
  | cancelled => cases hlive

/-! ### What is written -/

namespace Network

theorem written?_of_ne (h : ∀ asked, e ≠ .task (.drain x) asked) : n.written? x e = none := by
  cases e with
  | task task asked =>
    cases task with
    | drain y =>
      rw [written?, if_neg]
      rintro rfl
      exact h asked rfl
    | _ => rfl
  | _ => rfl

theorem raised?_of_cancelled (hσ : n.session? x = some σ) (hlive : σ.status.isLive = true)
    (hcancelled : σ.cancelled = true) : n.raised? x = some .cancelled := by
  simp [raised?, hσ, hlive, hcancelled]

theorem raised?_of_move {move : Move τ π} (hσ : n.session? x = some σ)
    (hlive : σ.status.isLive = true) (hcancelled : σ.cancelled = false)
    (hmove : σ.engine.move n.lexer.rules n.lexer.config
      ⟨(n.source? σ.input).getD .fresh, σ.reader⟩ = move) : n.raised? x = move.error? := by
  simp [raised?, nextMove?, hσ, hlive, hcancelled, hmove]

/-- A task that is no move and sets no final status leaves the error of the session as it is. -/
theorem Turn.error?_eq (hturn : Turn n x σ task σ' added)
    (hstage : Stage n.lexer x σ (task :: rest)) (hdrain : task ≠ .drain x)
    (hfinish : ∀ status, task ≠ .finish x status) : σ'.status.error? = σ.status.error? := by
  cases hturn with
  | @proceeds replays =>
    obtain ⟨-, -, hlive, -⟩ := hstage.of_proceed
    have hlive' := SessionStatus.isLive_afterFire hlive replays
    exact (SessionStatus.error?_of_isLive hlive').trans
      (SessionStatus.error?_of_isLive hlive).symm
  | finishes => exact (hfinish _ rfl).elim
  | elsewhere => rfl
  | flagged => rfl
  | cancelled => rfl
  | woken => rfl
  | emits => rfl
  | mute => rfl
  | closes => rfl
  | releases => rfl
  | _ => exact (hdrain rfl).elim

end Network

/-! ### One event -/

namespace ErrorCell

/-- A live session that is at most to end with its input has no error. -/
theorem of_live (hlive : σ.status.isLive = true)
    (hending : ∀ status, .finish x status ∈ agenda → status = .terminated) :
    ErrorCell x σ agenda none where
  ending := by
    intro status hmem
    rw [hending status hmem]
    rfl
  settled := fun _ => (SessionStatus.error?_of_isLive hlive).symm

theorem of_finish {status : SessionStatus} (hown : Task.own x rest = []) :
    ErrorCell x σ (.finish x status :: rest) status.error? where
  ending := by
    intro status' hmem
    rcases List.mem_cons.1 hmem with hmem | hmem
    · rw [(Task.finish.inj hmem).2]
    · exact (Network.finish_not_mem_of_own hown _ hmem).elim
  settled := fun hnone => (hnone status List.mem_cons_self).elim

theorem drain (h : ErrorCell x σ (.drain x :: rest) cell)
    (hstage : Stage n.lexer x σ (.drain x :: rest)) (hσ : n.session? x = some σ)
    (hturn : Network.Turn n x σ (.drain x) σ' added) :
    ErrorCell x σ' (added ++ rest) ((n.raised? x).or cell) := by
  obtain ⟨hown, -, hreading⟩ := hstage.of_drain
  have hrest := Network.finish_not_mem_of_own hown
  -- a session that is about to move has no error yet
  have hcell : cell = none := by
    refine (h.settled fun status hmem => ?_).trans (SessionStatus.error?_of_isLive hreading.live)
    rcases List.mem_cons.1 hmem with hmem | hmem
    · cases hmem
    · exact hrest status hmem
  subst hcell
  have hquiet : ∀ {tasks : List (Task τ)}, (∀ status, .finish x status ∉ tasks) →
      ∀ status, .finish x status ∈ tasks ++ rest → status = .terminated := by
    intro tasks htasks status hmem
    rcases List.mem_append.1 hmem with hmem | hmem
    · exact (htasks status hmem).elim
    · exact (hrest status hmem).elim
  cases hturn with
  | elsewhere howner => exact (howner rfl).elim
  | halts hstopped =>
    have hlive := hreading.live
    rw [hstopped] at hlive
    cases hlive
  | heeds hlive hcancelled =>
    rw [Network.raised?_of_cancelled hσ hlive hcancelled]
    exact .of_finish hown
  | rests hlive hcancelled hmove =>
    rw [Network.raised?_of_move hσ hlive hcancelled hmove]
    exact .of_live hlive (hquiet (by simp))
  | reads hlive hcancelled hmove =>
    rw [Network.raised?_of_move hσ hlive hcancelled hmove]
    exact .of_live (SessionStatus.isLive_afterRead hlive _) (hquiet (by simp))
  | fires hlive hcancelled hmove =>
    rw [Network.raised?_of_move hσ hlive hcancelled hmove]
    refine .of_live hlive (hquiet fun status hmem => ?_)
    rcases List.mem_append.1 hmem with hmem | hmem
    · exact Network.finish_not_mem_effects _ status hmem
    · simp at hmem
  | ends hlive hcancelled hmove =>
    rw [Network.raised?_of_move hσ hlive hcancelled hmove]
    refine .of_live hlive fun status hmem => ?_
    rw [List.append_assoc, List.mem_append, List.singleton_append, List.mem_cons] at hmem
    rcases hmem with hmem | hmem | hmem
    · exact (Network.finish_not_mem_effects _ status hmem).elim
    · exact (Task.finish.inj hmem).2
    · exact (hrest status hmem).elim
  | fails hlive hcancelled hmove =>
    rw [Network.raised?_of_move hσ hlive hcancelled hmove]
    exact .of_finish hown

theorem finish {status : SessionStatus} (h : ErrorCell x σ (.finish x status :: rest) cell)
    (hstage : Stage n.lexer x σ (.finish x status :: rest))
    (hturn : Network.Turn n x σ (.finish x status) σ' added) :
    ErrorCell x σ' (added ++ rest) cell := by
  obtain ⟨hown, -⟩ := hstage.of_finish
  have hcell := h.ending status List.mem_cons_self
  cases hturn with
  | elsewhere howner => exact (howner rfl).elim
  | finishes =>
    refine ⟨fun status' hmem => ?_, fun _ => hcell⟩
    rcases List.mem_append.1 hmem with hmem | hmem
    · split_ifs at hmem
      · simp at hmem
      · simp at hmem
    · exact (Network.finish_not_mem_of_own hown _ hmem).elim

theorem quiet (h : ErrorCell x σ (task :: rest) cell) (hstage : Stage n.lexer x σ (task :: rest))
    (hturn : Network.Turn n x σ task σ' added) (hdrain : task ≠ .drain x)
    (hfinish : ∀ status, task ≠ .finish x status) : ErrorCell x σ' (added ++ rest) cell := by
  obtain ⟨-, -, -, -, hnone⟩ := hturn.leaves hstage hdrain hfinish
  refine ⟨fun status hmem => h.ending status ?_, fun hover => ?_⟩
  · rcases List.mem_append.1 hmem with hmem | hmem
    · exact (hnone status hmem).elim
    · exact List.mem_cons_of_mem _ hmem
  · rw [hturn.error?_eq hstage hdrain hfinish]
    refine h.settled fun status hmem => ?_
    rcases List.mem_cons.1 hmem with hmem | hmem
    · exact hfinish status hmem.symm
    · exact hover status (List.mem_append_right _ hmem)

theorem passes (h : ErrorCell x σ n.agenda cell) (hstage : Stage n.lexer x σ n.agenda)
    (hσ : n.session? x = some σ) (hpasses : Network.Passes n x σ e m σ') :
    ErrorCell x σ' m.agenda ((n.written? x e).or cell) := by
  cases hpasses with
  | @turn task asked rest added _ hevent hagenda hturn hadded =>
    rw [hagenda] at h hstage
    rw [hadded]
    subst hevent
    by_cases hdrain : task = .drain x
    · subst hdrain
      have hwritten : n.written? x (.task (.drain x) asked) = n.raised? x := if_pos rfl
      rw [hwritten]
      exact drain (n := { n with agenda := rest }) h hstage hσ hturn
    have hwritten : n.written? x (.task task asked) = none :=
      Network.written?_of_ne fun asked' heq => hdrain (Event.task.inj heq).1
    rw [hwritten, Option.none_or]
    by_cases hfinish : ∃ status, task = .finish x status
    · obtain ⟨status, rfl⟩ := hfinish
      exact finish (n := { n with agenda := rest }) h hstage hturn
    · exact quiet (n := { n with agenda := rest }) h hstage hturn hdrain
        fun status heq => hfinish ⟨status, heq⟩
  | @aside listeners added hevent hadded hforeign _ =>
    have hnone := Network.finish_not_mem hforeign
    rw [Network.written?_of_ne fun asked => hevent _ asked, Option.none_or, hadded]
    refine ⟨fun status hmem => h.ending status ?_, fun hover => h.settled fun status hmem => ?_⟩
    · exact (List.mem_append.1 hmem).resolve_left (hnone status)
    · exact hover status (List.mem_append_right _ hmem)

end ErrorCell

/-! ### Runs -/

namespace Network

theorem Runs.exists_records (h : n.Runs trace m) (x : Nat) : ∃ cell, n.Records x trace cell m := by
  induction h with
  | refl => exact ⟨none, .refl⟩
  | snoc _ hnext ih =>
    obtain ⟨cell, hrecords⟩ := ih
    exact ⟨_, hrecords.snoc hnext⟩

theorem Records.runs (h : n.Records x trace cell m) : n.Runs trace m := by
  induction h with
  | refl => exact .refl
  | snoc _ hnext ih => exact ih.snoc hnext

/-- From its launch on the error cell of a session goes with its status. -/
theorem Records.errorCell {s : Nat} {reader : Reader Char} (h : n.Reachable l)
    (hagenda : n.agenda = []) (hreached : reader.start ≤ k ∧ k ≤ reader.reach)
    (hrecords : (n.launch s k reader).Records n.sessions.size trace cell m)
    (hσ : m.session? n.sessions.size = some σ) : ErrorCell n.sessions.size σ m.agenda cell := by
  have hlaunched : (n.launch s k reader).Reachable l := h.runs (.one (.launch s hagenda hreached))
  have hsize : n.sessions.size < (n.launch s k reader).sessions.size :=
    lt_size_of_session? (session?_launch_size s k reader)
  induction hrecords generalizing σ with
  | refl =>
    obtain rfl := Option.some.inj (hσ.symm.trans (session?_launch_size s k reader))
    refine .of_live rfl fun status hmem => ?_
    rw [launch, schedule, hagenda] at hmem
    simp at hmem
  | @snoc trace cell m m' e hbefore hnext ih =>
    obtain ⟨σ₀, hσ₀, hpasses⟩ :=
      hnext.passes_before (hsize.trans_le hbefore.runs.size_le) hσ
    exact (ih hσ₀).passes ((hlaunched.runs hbefore.runs).stage hσ₀) hσ₀ hpasses

end Network

/-- Where a session is to end with an error, this is what is done next. -/
theorem Stage.of_ending {status : SessionStatus} (h : Stage l x σ agenda)
    (hmem : .finish x status ∈ agenda) :
    agenda.head? = some (.finish x status) ∨
      (σ.status.isLive = true ∧ status = .terminated) := by
  have hown : .finish x status ∈ Task.own x agenda := (Task.mem_own_iff rfl).2 hmem
  have hlast : ∀ {work : List (Task τ)} {last : Task τ}, Task.own x agenda = work ++ [last] →
      (∀ task ∈ work, task.Writes x) → .finish x status = last := by
    intro work last heq hwork
    rw [heq] at hown
    rcases List.mem_append.1 hown with hown | hown
    · cases hwork _ hown
    · exact List.mem_singleton.1 hown
  have hfirst : ∀ {task : Task τ} {rest : List (Task τ)}, Task.own x rest = [] →
      .finish x status ∈ task :: rest → .finish x status = task := by
    intro task rest hnone hmem
    exact (List.mem_cons.1 hmem).resolve_right (Network.finish_not_mem_of_own hnone status)
  cases h with
  | idle hnone => exact (Network.finish_not_mem_of_own hnone status hmem).elim
  | ready hnone => cases hfirst hnone hmem
  | rested hnone => cases hfirst hnone hmem
  | failing hnone => exact .inl (congrArg some (hfirst hnone hmem).symm)
  | cancelling hnone => exact .inl (congrArg some (hfirst hnone hmem).symm)
  | acting heq hwork => cases hlast heq hwork
  | ending heq hwork _ hlive => exact .inr ⟨hlive, (Task.finish.inj (hlast heq hwork)).2⟩
  | closing heq =>
    rw [heq] at hown
    simp at hown
  | closed heq =>
    rw [heq] at hown
    simp at hown
  | done hnone => exact (Network.finish_not_mem_of_own hnone status hmem).elim

namespace Network

/-- In every run the error cell of a session holds the error that its status says, whoever looks at
it. Only when the next thing to be done is to set the final status, the cell is ahead: it says what
that status will say. -/
theorem error_cell_agrees {s : Nat} {reader : Reader Char} (h : n.Reachable l)
    (hagenda : n.agenda = []) (hreached : reader.start ≤ k ∧ k ≤ reader.reach)
    (hruns : (n.launch s k reader).Runs trace m) :
    (∃ cell, (n.launch s k reader).Records n.sessions.size trace cell m) ∧
      ∀ cell σ, (n.launch s k reader).Records n.sessions.size trace cell m →
        m.session? n.sessions.size = some σ →
        (∀ status, m.agenda.head? = some (.finish n.sessions.size status) →
          cell = status.error?) ∧
        ((∀ status, m.agenda.head? ≠ some (.finish n.sessions.size status)) →
          cell = σ.status.error?) := by
  refine ⟨hruns.exists_records _, fun cell σ hrecords hσ => ?_⟩
  have hcell := hrecords.errorCell h hagenda hreached hσ
  have hstage := ((h.runs (.one (.launch s hagenda hreached))).runs hruns).stage hσ
  refine ⟨fun status hhead => hcell.ending status (List.mem_of_mem_head? hhead),
    fun hnext => ?_⟩
  by_cases hover : ∃ status, .finish n.sessions.size status ∈ m.agenda
  · obtain ⟨status, hmem⟩ := hover
    obtain ⟨hlive, rfl⟩ := (hstage.of_ending hmem).resolve_left (hnext status)
    exact (hcell.ending _ hmem).trans (SessionStatus.error?_of_isLive hlive).symm
  · exact hcell.settled fun status hmem => hover ⟨status, hmem⟩

end Network

end

end DerivativeLexer
