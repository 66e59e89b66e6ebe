import DerivativeLexer.Proofs.Session.Hearing

/-! # The life of a session

Whenever nothing is left to do, the status, the error and the output of a session fit together: it
either steps through its input, or it has stopped and closed its output. Once it has stopped, it
stays as it is. With the tables of the two grammars, whoever listens to its output learns that it
was closed once. -/

namespace DerivativeLexer

variable {τ π : Type}

/-- The status of a session at rest says what its error is and whether its output is closed. -/
structure Session.Consistent (σ : Session τ π) : Prop where
  error_iff : σ.status.error? = none ↔ σ.status = .stepping ∨ σ.status = .terminated
  failed : ∀ e, σ.status = .failed e → σ.status.error? = some e ∧ e.Stops
  cancelled : σ.status = .cancelled → σ.status.error? = some .cancelled
  closed : σ.status ≠ .stepping → σ.output.closed = true

/-- Every listener on the output of a session, from the time `n` when it comes to a later time `m`,
hears at most once that the output was closed. If the output is open when it comes and the session
has stopped in the end, it hears it once, after everything else. -/
def Lexer.TellsCloseOnce (l : Lexer τ π) : Prop :=
  ∀ {n m : Network τ π} {x : Nat} {σ σ' : Session τ π} {r : Reaction τ} {trace : List (Event τ)},
    n.Reachable l → n.session? x = some σ → (n.listen x r).Runs trace m →
    m.session? x = some σ' →
    (heard x σ.listeners.length trace).countP List.isEmpty ≤ 1 ∧
      (m.agenda = [] → σ'.status.isLive = false → σ.output.closed = false →
        ∃ before, heard x σ.listeners.length trace = before ++ [[]] ∧ [] ∉ before)

section

variable {l : Lexer τ π} {n m : Network τ π} {x k : Nat} {σ σ' : Session τ π} {task : Task τ}
  {rest added : List (Task τ)}

/-! ### Status -/

theorem Session.Calm.consistent (h : σ.Calm l) : σ.Consistent := by
  have hstatus := h.status_eq
  refine ⟨?_, fun e he => ?_, fun hcancelled => ?_, fun hne => (hne hstatus).elim⟩
  · rw [hstatus]
    exact ⟨fun _ => .inl rfl, fun _ => rfl⟩
  · rw [hstatus] at he
    cases he
  · rw [hstatus] at hcancelled
    cases hcancelled

theorem Session.consistent_of_final (hfinal : σ.status.Final) (hclosed : σ.output.closed = true) :
    σ.Consistent := by
  refine ⟨?_, fun e he => ?_, fun hcancelled => ?_, fun _ => hclosed⟩
  · generalize σ.status = status at hfinal
    cases hfinal with
    | terminated => exact ⟨fun _ => .inr rfl, fun _ => rfl⟩
    | failed h => simp [SessionStatus.error?]
    | cancelled => simp [SessionStatus.error?]
  · rw [he] at hfinal ⊢
    cases hfinal with
    | failed hstops => exact ⟨rfl, hstops⟩
  · rw [hcancelled]
    rfl

theorem Network.Reachable.consistent (h : n.Reachable l) (hagenda : n.agenda = [])
    (hσ : n.session? x = some σ) : σ.Consistent := by
  have hstage := h.stage hσ
  rw [hagenda] at hstage
  rcases hstage.at_rest with ⟨-, hcalm⟩ | ⟨-, hfinal, hclosed⟩
  · exact hcalm.consistent
  · exact Session.consistent_of_final hfinal hclosed

/-! ### Sessions that have stopped -/

theorem Stage.turn_stopped (hstage : Stage n.lexer x σ (task :: rest))
    (hstopped : σ.status.isLive = false) (hturn : Network.Turn n x σ task σ' added) :
    σ'.status = σ.status ∧ σ'.items = σ.items := by
  have hlive' : ∀ {p : Prop}, σ.status.isLive = true → p := fun hlive => by
    rw [hstopped] at hlive
    cases hlive
  cases hturn with
  | @emits item =>
    -- all that is left to do is to close the output
    have hcons : Task.own x (.emit x item :: rest) = .emit x item :: Task.own x rest :=
      Task.own_cons rfl
    obtain ⟨-, hown | ⟨-, hown | hown⟩⟩ := hstage.of_stopped hstopped
    · cases hcons.symm.trans hown
    · cases hcons.symm.trans hown
    · cases hcons.symm.trans hown
  | cancelled _ hlive => exact hlive' hlive
  | woken _ _ hlive => exact hlive' hlive
  | heeds hlive => exact hlive' hlive
  | rests hlive => exact hlive' hlive
  | reads hlive => exact hlive' hlive
  | fires hlive => exact hlive' hlive
  | ends hlive => exact hlive' hlive
  | fails hlive => exact hlive' hlive
  | proceeds =>
    obtain ⟨-, -, hlive, -⟩ := hstage.of_proceed
    exact hlive' hlive
  | finishes =>
    obtain ⟨-, -, hlive, -⟩ := hstage.of_finish
    exact hlive' hlive
  | elsewhere => exact ⟨rfl, rfl⟩
  | flagged => exact ⟨rfl, rfl⟩
  | mute => exact ⟨rfl, rfl⟩
  | closes => exact ⟨rfl, rfl⟩
  | halts => exact ⟨rfl, rfl⟩
  | releases => exact ⟨rfl, rfl⟩

theorem Network.Reachable.stays_stopped {trace : List (Event τ)} (h : n.Reachable l)
    (hσ : n.session? x = some σ) (hstopped : σ.status.isLive = false) (hruns : n.Runs trace m)
    (hσ' : m.session? x = some σ') : σ'.status = σ.status ∧ σ'.items = σ.items := by
  refine hruns.follow (P := fun _ _ ρ => ρ.status = σ.status ∧ ρ.items = σ.items) hσ ⟨rfl, rfl⟩
    ?_ hσ'
  intro trace m m' ρ ρ' e hbefore hρ hsame _ _ hpasses
  cases hpasses with
  | @turn task _ rest _ _ _ hagenda hturn _ =>
    have hstage := (h.runs hbefore).stage hρ
    rw [hagenda] at hstage
    rw [← hsame.1] at hstopped
    obtain ⟨hstatus, hitems⟩ :=
      Stage.turn_stopped (n := { m with agenda := rest }) hstage hstopped hturn
    exact ⟨hstatus.trans hsame.1, hitems.trans hsame.2⟩
  | aside => exact hsame

/-! ### Listeners -/

theorem countP_isEmpty_singletons (items : List τ) :
    (items.map ([·])).countP List.isEmpty = 0 := by
  rw [List.countP_eq_zero]
  intro told htold
  obtain ⟨item, -, rfl⟩ := List.mem_map.1 htold
  exact Bool.false_ne_true

theorem Lexer.tellsCloseOnce (hall : l.rules.All RuleTable.ClosesAtEnd) : l.TellsCloseOnce := by
  intro n m x σ σ' r trace h hσ hruns hσ'
  obtain ⟨-, -, later, -, htold⟩ := h.hears hall hσ hruns hσ'
  refine ⟨?_, fun hagenda hstopped hopen => ⟨later.map ([·]), ?_, fun hmem => ?_⟩⟩
  · have hle : (heard x σ.listeners.length trace).countP List.isEmpty ≤
        (heard x σ.listeners.length trace ++
          Task.told x σ.listeners.length m.agenda).countP List.isEmpty := by
      rw [List.countP_append]
      exact Nat.le_add_right _ _
    refine hle.trans ?_
    rw [htold, List.countP_append, countP_isEmpty_singletons, Nat.zero_add]
    split_ifs
    · exact Nat.le_refl 1
    · exact Nat.zero_le 1
  · have hm : m.Reachable l := (h.runs (.one (.listen x r))).runs hruns
    have hclosed : σ'.output.closed = true := by
      refine (hm.consistent hagenda hσ').closed fun hstatus => ?_
      rw [hstatus] at hstopped
      cases hstopped
    have hnone : Task.told x σ.listeners.length m.agenda = [] := by
      rw [hagenda]
      rfl
    rw [hnone, List.append_nil, hclosed, hopen] at htold
    exact htold
  · obtain ⟨item, -, hitem⟩ := List.mem_map.1 hmem
    cases hitem

end

/-- Every session is consistent when nothing is left to do, and stays as it is once it has stopped.
With the tables of KLisp and Scheme its listeners hear once that its output was closed. -/
theorem session_lifecycle :
    (∀ {τ π : Type} {l : Lexer τ π} {n : Network τ π} {x : Nat} {σ : Session τ π},
      n.Reachable l → n.session? x = some σ →
        (n.agenda = [] → σ.Consistent) ∧
        (σ.status.isLive = false → ∀ {trace m σ'}, n.Runs trace m → m.session? x = some σ' →
          σ'.status = σ.status ∧ σ'.items = σ.items)) ∧
      (∀ l : Lexer Token StringBody, l.rules = KLisp.rules → l.TellsCloseOnce) ∧
      ∀ l : Lexer Token Scheme.Payload, l.rules = Scheme.rules → l.TellsCloseOnce := by
  refine ⟨fun h hσ => ⟨fun hagenda => h.consistent hagenda hσ, fun hstopped => ?_⟩,
    fun l hrules => Lexer.tellsCloseOnce ?_, fun l hrules => Lexer.tellsCloseOnce ?_⟩
  · exact fun hruns hσ' => h.stays_stopped hσ hstopped hruns hσ'
  · rw [hrules]
    exact KLisp.closesAtEnd
  · rw [hrules]
    exact Scheme.closesAtEnd

/-! ### A session that its listener ends -/

def KLisp.sample : Lexer Token StringBody := ⟨rules, .standard, by decide +kernel⟩

namespace Network

def parentheses : Network Token StringBody :=
  (((fresh KLisp.sample).addSource ⟨"(".toList, 0, false⟩).2.openSession 0 0 60).2

/-- Closes the input as soon as it is told something. -/
def closer : Reaction Token := ⟨fun _ => true, 1, [.source (.close 0)]⟩

def closedParentheses : Network Token StringBody :=
  (parentheses.listen 0 closer).ask (.source (.push 0 ")".toList)) 60

theorem reachable_parentheses : parentheses.Reachable KLisp.sample := by
  obtain ⟨trace, hruns⟩ : ∃ trace,
      ((fresh KLisp.sample).addSource ⟨"(".toList, 0, false⟩).2.Runs trace parentheses :=
    exists_runs_openSession rfl (by decide +kernel)
  exact ⟨_, (Runs.one (.addSource _)).trans hruns⟩

end Network

/-- The listener closes the input while the session is at work, and the session ends. -/
theorem session_lifecycle_sample :
    ∃ (σ σ' : Session Token StringBody) (trace : List (Event Token)),
      Network.parentheses.session? 0 = some σ ∧
        (Network.parentheses.listen 0 Network.closer).Runs trace Network.closedParentheses ∧
        Network.closedParentheses.session? 0 = some σ' ∧ σ.status = .stepping ∧
        σ'.status = .terminated ∧ σ.items.length = 1 ∧ σ'.items.length = 2 ∧ σ'.Consistent ∧
        (∀ {later m σ''}, Network.closedParentheses.Runs later m → m.session? 0 = some σ'' →
          σ''.status = σ'.status ∧ σ''.items = σ'.items) ∧
        (heard 0 0 trace).countP List.isEmpty ≤ 1 ∧
        ∃ before, heard 0 0 trace = before ++ [[]] ∧ [] ∉ before := by
  obtain ⟨σ, hσ⟩ : ∃ σ, Network.parentheses.session? 0 = some σ :=
    ⟨_, (Option.some_get (by decide +kernel)).symm⟩
  obtain ⟨σ', hσ'⟩ : ∃ σ', Network.closedParentheses.session? 0 = some σ' :=
    ⟨_, (Option.some_get (by decide +kernel)).symm⟩
  have hbegun : (Network.parentheses.session? 0).map
      (fun σ => (σ.status, σ.items.length, σ.listeners.length, σ.output.closed)) =
        some (.stepping, 1, 0, false) := by decide +kernel
  have hended : (Network.closedParentheses.session? 0).map
      (fun σ => (σ.status, σ.items.length)) = some (.terminated, 2) := by decide +kernel
  rw [hσ, Option.map_some, Option.some_inj, Prod.mk.injEq, Prod.mk.injEq, Prod.mk.injEq] at hbegun
  rw [hσ', Option.map_some, Option.some_inj, Prod.mk.injEq] at hended
  obtain ⟨hstatus, hitems, hlisteners, hopen⟩ := hbegun
  obtain ⟨hstatus', hitems'⟩ := hended
  have hagenda : Network.closedParentheses.agenda = [] := by decide +kernel
  have hstopped : σ'.status.isLive = false := by
    rw [hstatus']
    rfl
  obtain ⟨trace, hruns⟩ : ∃ trace, (Network.parentheses.listen 0 Network.closer).Runs trace
      Network.closedParentheses := Network.exists_runs_ask (by decide +kernel) _ 60
  have hreachable := (Network.reachable_parentheses.runs (.one (.listen 0 _))).runs hruns
  obtain ⟨hsessions, hklisp, -⟩ := session_lifecycle
  obtain ⟨hconsistent, hstays⟩ := hsessions hreachable hσ'
  obtain ⟨honce, hlast⟩ := hklisp KLisp.sample rfl Network.reachable_parentheses hσ hruns hσ'
  rw [hlisteners] at honce hlast
  exact ⟨σ, σ', trace, hσ, hruns, hσ', hstatus, hstatus', hitems, hitems', hconsistent hagenda,
    hstays hstopped, honce, hlast hagenda hstopped hopen⟩

end DerivativeLexer
