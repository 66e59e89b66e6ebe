import DerivativeLexer.Proofs.Lexer.Previews
import DerivativeLexer.Proofs.Session.Streaming

/-! # What a session shows of a dead end

A session that gets its text in pieces comes to the dead end of the whole text, and shows of what is
left what there was by then. If it was live until the last of the text came, it shows as much as if
all of the text had been there from the beginning. -/

namespace DerivativeLexer

variable {τ π : Type} {l : Lexer τ π} {s x : Nat} {total : Source Char} {n : Network τ π}
  {σ : Session τ π} {text : List Char} {place : Position} {remaining : String}

/-! ### The dead end of the whole text -/

theorem SessionStatus.Foreshows.of_deadEnd {status : SessionStatus}
    (h : SessionStatus.Foreshows (.failed (.deadEnd place remaining)) status) :
    ∃ remaining', status = .failed (.deadEnd place remaining') ∧
      remaining.toList <+: remaining'.toList := by
  cases h with
  | same => exact ⟨_, rfl, List.prefix_refl _⟩
  | failed h =>
    cases h with
    | same => exact ⟨_, rfl, List.prefix_refl _⟩
    | deadEnd _ hprefix => exact ⟨_, rfl, hprefix⟩

namespace SoloRun

/-- The run on a source before anything has happened. -/
def fed (l : Lexer τ π) (source : Source Char) : SoloRun τ π :=
  ⟨.start l.rules source.pulled, ⟨source, .of source⟩, .fresh, .stepping⟩

theorem opening?_fed (l : Lexer τ π) (source : Source Char) :
    opening? l source 0 = some (fed l source) := rfl

theorem grow_fed (l : Lexer τ π) (text : List Char) (closed : Bool) :
    (fed l ⟨text, 0, closed⟩).grow [] true = start l text := by
  cases closed with
  | true => rfl
  | false => simp [grow, fed, start, Feed.grow, Source.grow, Source.complete, Reader.of]

end SoloRun

/-- What a session that has stopped has emitted, and what it fails with. -/
theorem Streamed.foreshows_lastRun {closed : Bool} (h : Streamed l s 0 x ⟨text, 0, closed⟩ n σ)
    (hstopped : σ.status.isLive = false) :
    σ.items = (l.lastRun text).output.queue ∧ σ.status.Foreshows (l.lastRun text).status := by
  obtain ⟨-, -, run, ⟨start, j, hstart, -, hrun⟩, houtput, hstatus, -⟩ := h.stands
  obtain rfl := Option.some.inj ((SoloRun.opening?_fed l _).symm.trans hstart)
  rw [hstatus] at hstopped
  have hshows : run.Foreshows ((SoloRun.fed l ⟨text, 0, closed⟩).run l j) := by
    rcases hrun with rfl | hshows
    · exact ⟨hstopped, rfl, .same _⟩
    · exact hshows
  rcases (SoloRun.fed l ⟨text, 0, closed⟩).run_grow l [] true j with ⟨hlive, -⟩ | ⟨k, hgrown⟩
  · cases hlive.symm.trans hshows.stopped_right
  · rw [SoloRun.grow_fed] at hgrown
    rw [Lexer.run_eq_lastRun hgrown.stopped_right] at hgrown
    have hlast := hshows.trans hgrown
    rw [Session.items, houtput, hstatus, hlast.output_eq]
    exact ⟨rfl, hlast.status⟩

/-! ### What was there -/

/-- The run is on all of a source, and if it has come to a dead end, it shows what the source has
there. -/
structure SoloRun.Overlooks (l : Lexer τ π) (total : Source Char) (run : SoloRun τ π) : Prop where
  placed : run.Placed l
  text_eq : run.feed.text = total.queue
  start_eq : run.feed.reader.start = total.pulled
  closed_eq : run.feed.source.closed = total.closed
  remaining_eq : ∀ place remaining, run.status = .failed (.deadEnd place remaining) →
    remaining =
      String.ofList ((total.queue.drop (place.offset - total.pulled)).take l.config.preview)

namespace SoloRun.Overlooks

variable {solo : SoloRun τ π}

theorem fed (l : Lexer τ π) (source : Source Char) : (SoloRun.fed l source).Overlooks l source where
  placed := fun _ => ⟨[], _, Engine.tracks_enter l.rules ⟨Nat.le_refl _, Nat.le_refl _⟩⟩
  text_eq := rfl
  start_eq := rfl
  closed_eq := rfl
  remaining_eq := fun _ _ h => nomatch h

theorem run (h : solo.Overlooks l total) (k : Nat) : (solo.run l k).Overlooks l total := by
  have hreads := run_reads h.placed k
  refine ⟨h.placed.run k, hreads.text_eq.trans h.text_eq, hreads.start_eq.trans h.start_eq,
    hreads.closed_eq.trans h.closed_eq, fun place remaining hstatus => ?_⟩
  cases hlive : solo.status.isLive with
  | true =>
    rw [SoloRun.remaining_eq h.placed hlive hstatus, Feed.textFrom, h.text_eq, h.start_eq]
  | false =>
    rw [run_of_stopped hlive] at hstatus
    exact h.remaining_eq place remaining hstatus

/-- More text is shown only if the run has not stopped. -/
theorem grow (h : solo.Overlooks l total) {items : List Char} (closing : Bool)
    (hitems : solo.status.isLive = true ∨ items = []) :
    (solo.grow items closing).Overlooks l (total.grow items closing) where
  placed := h.placed.grow items closing
  text_eq := by
    have hclosed := h.closed_eq
    simp only [SoloRun.grow, Feed.grow, Feed.text, Source.grow] at hclosed ⊢
    rw [hclosed]
    split_ifs
    · exact h.text_eq
    · rw [← h.text_eq]
      exact (List.append_assoc _ _ _).symm
  start_eq := by
    rw [Source.pulled_grow]
    exact h.start_eq
  closed_eq := by
    simp only [SoloRun.grow, Feed.grow, Source.grow, h.closed_eq]
    split_ifs with hclosed
    · exact h.closed_eq
    · rfl
  remaining_eq := by
    intro place remaining hstatus
    rcases hitems with hlive | rfl
    · rw [show solo.status = _ from hstatus] at hlive
      cases hlive
    · have hqueue : (total.grow [] closing).queue = total.queue := by
        unfold Source.grow
        split_ifs
        · rfl
        · exact List.append_nil _
      rw [hqueue, Source.pulled_grow]
      exact h.remaining_eq place remaining hstatus

/-- As long as it is live, the run of a session is the one on all that has come. -/
theorem of_reproduces (h : Reproduces l 0 total solo) (hlive : solo.status.isLive = true) :
    solo.Overlooks l total := by
  obtain ⟨start, k, hstart, -, hrun⟩ := h
  obtain rfl := Option.some.inj ((opening?_fed l total).symm.trans hstart)
  rcases hrun with rfl | hshows
  · exact (fed l total).run k
  · cases hlive.symm.trans hshows.stopped

end SoloRun.Overlooks

/-- A history in which the session was live when the last of the text came, or in which all of the
text was there when it began. -/
inductive Awaited (l : Lexer τ π) (s : Nat) :
    (x : Nat) → (total : Source Char) → Network τ π → Session τ π → Prop
  | opened {n m : Network τ π} {source : Source Char} {x fuel : Nat} {σ : Session τ π}
      (hlexer : n.lexer = l) (hagenda : n.agenda = []) (hsource : n.source? s = some source)
      (hapart : n.Apart s n.sessions.size) (hstart : n.start s 0 fuel = (.ok x, m))
      (hreturns : m.agenda = []) (hσ : m.session? x = some σ) :
      Awaited l s x source (n.openSession s 0 fuel).2 σ
  | push {n : Network τ π} {total : Source Char} {x : Nat} {σ : Session τ π}
      (h : Streamed l s 0 x total n σ) (hlive : σ.status.isLive = true) (text : List Char)
      (fuel : Nat) (hreturns : (n.ask (.source (.push s text)) fuel).agenda = []) :
      Awaited l s x (total.push text) (n.ask (.source (.push s text)) fuel)
        (((n.ask (.source (.push s text)) fuel).session? x).getD σ)
  | close {n : Network τ π} {total : Source Char} {x : Nat} {σ : Session τ π}
      (h : Awaited l s x total n σ) (fuel : Nat)
      (hreturns : (n.ask (.source (.close s)) fuel).agenda = []) :
      Awaited l s x total.close (n.ask (.source (.close s)) fuel)
        (((n.ask (.source (.close s)) fuel).session? x).getD σ)
  | elsewhere {n n' : Network τ π} {total : Source Char} {x : Nat} {σ : Session τ π}
      (h : Awaited l s x total n σ) (helse : n.Elsewhere s x n') :
      Awaited l s x total n' ((n'.session? x).getD σ)

namespace Awaited

theorem streamed (h : Awaited l s x total n σ) : Streamed l s 0 x total n σ := by
  induction h with
  | opened hlexer hagenda hsource hapart hstart hreturns hσ =>
    exact .opened hlexer hagenda hsource hapart hstart hreturns hσ
  | push h hlive text fuel hreturns => exact h.push text fuel hreturns
  | close h fuel hreturns ih => exact ih.close fuel hreturns
  | elsewhere h helse ih => exact ih.elsewhere helse

theorem shows (h : Awaited l s x total n σ) : Shows (SoloRun.Overlooks l total) l s x n σ := by
  induction h with
  | opened hlexer hagenda hsource hapart hstart hreturns hσ =>
    subst hlexer
    refine shows_opened hagenda hsource hapart hstart hreturns hσ fun hopening hsettled => ?_
    obtain rfl := Option.some.inj ((SoloRun.opening?_fed _ _).symm.trans hopening)
    exact (SoloRun.Overlooks.fed _ _).run _
  | @push n total x σ h hlive text fuel hreturns =>
    obtain ⟨hagenda, hlexer, run, hrun, houtput, hstatus, hstands⟩ := h.stands
    rw [hstatus] at hlive
    -- The text that comes now goes to a run that nothing was kept from.
    have hshows : Shows (fun run => run.Overlooks l total ∧ run.status.isLive = true) l s x n σ :=
      ⟨hagenda, hlexer, run, ⟨.of_reproduces hrun hlive, hlive⟩, houtput, hstatus, hstands⟩
    rw [Source.push_eq_grow]
    exact hshows.ask (fun hidles hreturns => hidles.settle_push text hreturns)
      (fun hrun _ => (hrun.1.grow false (.inl hrun.2)).run _) hreturns
  | close h fuel hreturns ih =>
    rw [Source.close_eq_grow]
    exact ih.ask (fun hidles hreturns => hidles.settle_close hreturns)
      (fun hrun _ => (hrun.grow true (.inr rfl)).run _) hreturns
  | elsewhere h helse ih => exact ih.elsewhere helse

/-- A session that comes to a dead end then shows as much of what is left as it wants to. -/
theorem remaining_eq (h : Awaited l s x total n σ)
    (hstatus : σ.status = .failed (.deadEnd place remaining)) :
    remaining =
      String.ofList ((total.queue.drop (place.offset - total.pulled)).take l.config.preview) := by
  obtain ⟨-, -, run, hrun, -, hsame, -⟩ := h.shows
  exact hrun.remaining_eq place remaining (hsame ▸ hstatus)

end Awaited

end DerivativeLexer
