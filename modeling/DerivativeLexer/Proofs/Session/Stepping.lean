import DerivativeLexer.Proofs.Lexer.Stepping
import DerivativeLexer.Proofs.Session.Tiling

/-! # The match in progress of a session

The engine of every session that is at work, in whatever network, is one between two steps or in
the middle of one. So all that is known of such an engine is known of every session: which rules
are left, what its bookmark holds, and that no rule was left out that could still have won. -/

namespace DerivativeLexer

variable {τ π : Type}

/-- The engine of the session is one between two steps. -/
def Session.Stands (l : Lexer τ π) (σ : Session τ π) : Prop :=
  ∃ k visits source, Stepped l k visits σ.engine ⟨source, σ.reader⟩

section

variable {l : Lexer τ π} {n : Network τ π} {x : Nat} {σ σ' : Session τ π} {task : Task τ}
  {rest added : List (Task τ)}

namespace Session.Stands

theorem of_eq (h : σ.Stands l) (hengine : σ'.engine = σ.engine) (hreader : σ'.reader = σ.reader) :
    σ'.Stands l := by
  rw [Stands, hengine, hreader]
  exact h

/-- What a move leaves of a session that goes on. -/
theorem turn_drain (h : σ.Stands n.lexer) (hturn : Network.Turn n x σ (.drain x) σ' added)
    (hgoes : ∀ status, .finish x status ∉ added) : σ'.Stands n.lexer := by
  obtain ⟨k, visits, source, hstepped⟩ := h
  have hnow := hstepped.others ((n.source? σ.input).getD .fresh)
  cases hturn with
  | reads hlive hcancelled hmove => exact ⟨k, _, _, hnow.amid hmove⟩
  | fires hlive hcancelled hmove => exact ⟨k, _, _, hnow.fire hmove⟩
  | ends => exact (hgoes _ (List.mem_append_right _ (List.mem_singleton_self _))).elim
  | fails => exact (hgoes _ (List.mem_singleton_self _)).elim
  | _ => exact ⟨k, visits, source, hstepped⟩

theorem turn (hstage : Stage n.lexer x σ (task :: rest)) (hturn : Network.Turn n x σ task σ' added)
    (hlive : σ'.status.isLive = true) (hgoes : ∀ status, .finish x status ∉ added)
    (h : σ.status.isLive = true → (∀ status, task ≠ .finish x status) → σ.Stands n.lexer) :
    σ'.Stands n.lexer := by
  by_cases hdrain : task = .drain x
  · subst hdrain
    obtain ⟨-, -, hreading⟩ := hstage.of_drain
    exact (h hreading.live (by simp)).turn_drain hturn hgoes
  by_cases hfinish : ∃ status, task = .finish x status
  · -- a session that finishes is not live any more
    obtain ⟨status, rfl⟩ := hfinish
    obtain ⟨-, -, -, hfinal, -⟩ := hstage.of_finish
    cases hturn with
    | elsewhere howner => exact (howner rfl).elim
    | finishes => exact (Bool.false_ne_true (hfinal.not_isLive ▸ hlive)).elim
  · have hfinish' : ∀ status, task ≠ .finish x status := fun status heq => hfinish ⟨status, heq⟩
    obtain ⟨hengine, hreader, hsame, -⟩ := hturn.leaves hstage hdrain hfinish'
    exact (h (hsame ▸ hlive) hfinish').of_eq hengine hreader

end Session.Stands

theorem Network.Reachable.stands (h : n.Reachable l) (hσ : n.session? x = some σ)
    (hworks : n.Works x σ) : σ.Stands l := by
  have hstands : n.Works x σ → σ.Stands n.lexer := by
    refine h.follow (P := fun n σ => n.Works x σ → σ.Stands n.lexer) ?_ ?_ hσ
    · intro m t offset reader _ _ hreached _
      exact ⟨offset, [], .fresh, .start hreached⟩
    · intro m m' σ σ' e hm hσ hstands hevent _ hpasses hworks'
      rw [hevent.lexer_eq]
      have hstage := hm.stage hσ
      cases hpasses with
      | @turn task asked rest added _ _ hagenda hturn hadded =>
        rw [hagenda] at hstage
        have hkept : ∀ status, .finish x status ∉ added ++ rest := fun status => by
          rw [← hadded]
          exact hworks'.2 status
        refine Session.Stands.turn (n := { m with agenda := rest }) hstage hturn hworks'.1
          (fun status hmem => hkept status (List.mem_append_left _ hmem)) fun hlive htask => ?_
        refine hstands (Network.works_of_task hagenda hlive htask fun status hmem => ?_)
        exact hkept status (List.mem_append_right _ hmem)
      | aside _ hadded =>
        refine (hstands ⟨hworks'.1, fun status hmem => hworks'.2 status ?_⟩).of_eq rfl rfl
        rw [hadded]
        exact List.mem_append_right _ hmem
  exact h.lexer_eq ▸ hstands hworks

end

/-- Between two steps the live rules of a match in progress are the derivatives of the declared
ones by the text read so far, the bookmark holds the longest part of it at which a step began and
that some rule has, and whatever the text goes on with, the rule that wins is the one that would
win if no rule were ever left out. A step is what the moves of an engine come to, and that it
remembers a match at rest is not seen by any later move. The engines of sessions at work are
engines between two steps, whoever else uses their sources. -/
theorem transient_states (l : Lexer τ π) :
    (∀ {k visits} {e : Engine π} {f}, Stepped l k visits e f →
      e.Transient l.rules f.reader visits) ∧
    (∀ (e : Engine π) f,
      e.step l.rules l.config f = (e.move l.rules l.config f).outcome l.rules l.config e.noted f ∧
        e.noted.move l.rules l.config f = e.move l.rules l.config f) ∧
    ∀ {n : Network τ π} {x σ}, n.Reachable l → n.session? x = some σ → n.Works x σ →
      ∃ k visits source, Stepped l k visits σ.engine ⟨source, σ.reader⟩ := by
  refine ⟨fun h => h.transient, fun e f => ⟨e.step_eq l.rules l.config f, ?_⟩, ?_⟩
  · exact e.move_noted l.rules l.config f
  · exact fun h hσ hworks => h.stands hσ hworks

namespace Network

/-- Of `aa` both letters are read, and the bookmark is behind the first of them. -/
theorem transient_states_prompting : ∃ (σ : Session String Unit) (visits : List Nat)
    (m : Bookmark) (p : List Char),
    ((prompting.launch 0 1 prompted.reader).settle 7).session? 0 = some σ ∧
      σ.engine.textSoFar σ.reader = ['a', 'a'] ∧ σ.engine.bookmark = some m ∧
      m.position.offset = 3 ∧ σ.engine.Attests Lexer.prompting.rules ['a', 'a'] visits p ∧
      m.position = σ.engine.matching.start.advanceBy p ∧
      σ.engine.Transient Lexer.prompting.rules σ.reader visits := by
  obtain ⟨σ, hσ⟩ : ∃ σ, ((prompting.launch 0 1 prompted.reader).settle 7).session? 0 = some σ :=
    ⟨_, (Option.some_get (by decide +kernel)).symm⟩
  have hstate : (((prompting.launch 0 1 prompted.reader).settle 7).session? 0).map
      (fun σ => (σ.status, σ.engine.textSoFar σ.reader,
        σ.engine.bookmark.map (·.position.offset))) =
          some (.stepping, ['a', 'a'], some 3) := by decide +kernel
  rw [hσ, Option.map_some, Option.some_inj, Prod.mk.injEq, Prod.mk.injEq] at hstate
  obtain ⟨hstatus, htext, hbookmark⟩ := hstate
  obtain ⟨m, hm, hposition⟩ := Option.map_eq_some_iff.1 hbookmark
  have hmoved := (Moved.refl (n := prompting.launch 0 1 prompted.reader) (x := 0)).settle 7
  have hreachable := launches_prompting.runs.1.runs hmoved.runs
  have hagenda : ((prompting.launch 0 1 prompted.reader).settle 7).agenda = [.drain 0] := by
    decide +kernel
  have hworks : ((prompting.launch 0 1 prompted.reader).settle 7).Works 0 σ := by
    rw [Works, hstatus, hagenda]
    exact ⟨rfl, by simp⟩
  obtain ⟨hstepped, -, hsessions⟩ := transient_states Lexer.prompting
  obtain ⟨k, visits, source, hstands⟩ := hsessions hreachable hσ hworks
  have htransient := hstepped hstands
  obtain ⟨p, hp, -, -, hplace⟩ := htransient.marked m hm
  rw [htext] at hp
  exact ⟨σ, visits, m, p, hσ, htext, hm, hposition, hp, hplace, htransient⟩

end Network

end DerivativeLexer
