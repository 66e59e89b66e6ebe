import DerivativeLexer.Proofs.Lexer.MaximalMunch
import DerivativeLexer.Proofs.Session.Elsewhere

/-! # Streaming

The input of a session may have been there before the session was, or come in pieces of any size
while it is under way. What the session has emitted and what status it has depends only on how
much has come by then, and on whether the source was closed. An error may show more or less of
what is left, since it shows only what was there when it came up. -/

namespace DerivativeLexer

variable {τ π : Type}

/-! ### The same error, the same status -/

/-- The errors are the same, but one may show more of what is left than the other. -/
def LexError.Agrees : LexError → LexError → Prop
  | .deadEnd place remaining, .deadEnd place' remaining' =>
    place = place' ∧
      (remaining.toList <+: remaining'.toList ∨ remaining'.toList <+: remaining.toList)
  | e, e' => e = e'

def SessionStatus.Agrees : SessionStatus → SessionStatus → Prop
  | .failed e, .failed e' => e.Agrees e'
  | s, s' => s = s'

theorem LexError.Agrees.refl (e : LexError) : e.Agrees e := by
  cases e with
  | deadEnd place remaining => exact ⟨rfl, .inl (List.prefix_refl _)⟩
  | matchTooLong => exact Eq.refl _
  | invalidRule => exact Eq.refl _
  | cancelled => exact Eq.refl _

theorem SessionStatus.Agrees.refl (s : SessionStatus) : s.Agrees s := by
  cases s with
  | failed e => exact LexError.Agrees.refl e
  | stepping => exact Eq.refl _
  | backtracking => exact Eq.refl _
  | terminated => exact Eq.refl _
  | cancelled => exact Eq.refl _

theorem LexError.Foreshows.agrees {a b c : LexError} (ha : a.Foreshows c) (hb : b.Foreshows c) :
    a.Agrees b := by
  cases ha with
  | same =>
    cases hb with
    | same => exact .refl _
    | deadEnd place h => exact ⟨rfl, .inr h⟩
  | deadEnd place h =>
    cases hb with
    | same => exact ⟨rfl, .inl h⟩
    | deadEnd _ h' => exact ⟨rfl, List.prefix_or_prefix_of_prefix h h'⟩

theorem SessionStatus.Foreshows.agrees {a b c : SessionStatus} (ha : a.Foreshows c)
    (hb : b.Foreshows c) : a.Agrees b := by
  cases ha with
  | same =>
    cases hb with
    | same => exact .refl _
    | failed h => exact LexError.Foreshows.agrees (.same _) h
  | failed h =>
    cases hb with
    | same => exact h.agrees (.same _)
    | failed h' => exact h.agrees h'

/-! ### Histories of a session -/

/-- A history of a session `x` on the source `s`, in a network with a lexer. The session starts
behind the first `skip` characters of what is in the source by then, and afterwards the source is
fed and closed, and other things happen. `total` is the source as it would be if nobody read from
it. The session is the one at `x` now, or as it was last seen there if it failed on what was there
when it started. Every call has returned when the next one is made. -/
inductive Streamed (l : Lexer τ π) (s skip : Nat) :
    (x : Nat) → (total : Source Char) → Network τ π → Session τ π → Prop
  | opened {n m : Network τ π} {source : Source Char} {x fuel : Nat} {σ : Session τ π}
      (hlexer : n.lexer = l) (hagenda : n.agenda = []) (hsource : n.source? s = some source)
      (hapart : n.Apart s n.sessions.size) (hstart : n.start s skip fuel = (.ok x, m))
      (hreturns : m.agenda = []) (hσ : m.session? x = some σ) :
      Streamed l s skip x source (n.openSession s skip fuel).2 σ
  | push {n : Network τ π} {total : Source Char} {x : Nat} {σ : Session τ π}
      (h : Streamed l s skip x total n σ) (text : List Char) (fuel : Nat)
      (hreturns : (n.ask (.source (.push s text)) fuel).agenda = []) :
      Streamed l s skip x (total.push text) (n.ask (.source (.push s text)) fuel)
        (((n.ask (.source (.push s text)) fuel).session? x).getD σ)
  | close {n : Network τ π} {total : Source Char} {x : Nat} {σ : Session τ π}
      (h : Streamed l s skip x total n σ) (fuel : Nat)
      (hreturns : (n.ask (.source (.close s)) fuel).agenda = []) :
      Streamed l s skip x total.close (n.ask (.source (.close s)) fuel)
        (((n.ask (.source (.close s)) fuel).session? x).getD σ)
  | elsewhere {n n' : Network τ π} {total : Source Char} {x : Nat} {σ : Session τ π}
      (h : Streamed l s skip x total n σ) (helse : n.Elsewhere s x n') :
      Streamed l s skip x total n' ((n'.session? x).getD σ)

/-! ### A run on all of the source -/

def SoloRun.opening? (l : Lexer τ π) (source : Source Char) (skip : Nat) :
    Option (SoloRun τ π) :=
  match Network.skipFrom ⟨source, .of source⟩ source.pulled skip with
  | (.ok offset, feed) => some ⟨.start l.rules offset, feed, .fresh, .stepping⟩
  | (.error _, _) => none

theorem Network.skipFrom_grow {f g : Feed Char} {offset stop : Nat} {k : Nat}
    (h : skipFrom f offset k = (.ok stop, g)) (items : List Char) (closing : Bool) :
    skipFrom (f.grow items closing) offset k = (.ok stop, g.grow items closing) := by
  induction k generalizing f offset with
  | zero =>
    cases h
    rfl
  | succ k ih =>
    rw [skipFrom] at h ⊢
    cases hhead : f.head? offset with
    | none =>
      rw [hhead] at h
      cases h
    | some taken =>
      obtain ⟨c, next⟩ := taken
      rw [hhead] at h
      rw [Feed.head?_grow hhead]
      exact ih h

theorem SoloRun.opening?_grow {l : Lexer τ π} {source : Source Char} {skip : Nat}
    {run : SoloRun τ π} (h : opening? l source skip = some run) (items : List Char)
    (closing : Bool) :
    opening? l (source.grow items closing) skip = some (run.grow items closing) := by
  have hfeed : (⟨source.grow items closing, .of (source.grow items closing)⟩ : Feed Char) =
      (⟨source, .of source⟩ : Feed Char).grow items closing := by
    rw [Feed.grow, Reader.of, Reader.of, Source.pulled_grow]
  unfold opening? at h ⊢
  rw [hfeed, Source.pulled_grow]
  split at h
  · rename_i offset feed hskip
    obtain rfl := Option.some.inj h
    rw [Network.skipFrom_grow hskip]
    rfl
  · cases h

/-- The run shows what a run on all of the source comes to. -/
def Reproduces (l : Lexer τ π) (skip : Nat) (total : Source Char) (run : SoloRun τ π) : Prop :=
  ∃ start k, SoloRun.opening? l total skip = some start ∧ (start.run l k).Settled l ∧
    (start.run l k = run ∨ run.Foreshows (start.run l k))

section

variable {l : Lexer τ π} {s skip x : Nat} {total : Source Char} {n n' : Network τ π}
  {σ : Session τ π} {run : SoloRun τ π} {P Q : SoloRun τ π → Prop}

theorem Reproduces.grow (h : Reproduces l skip total run) (items : List Char) (closing : Bool)
    {j : Nat} (hsettled : ((run.grow items closing).run l j).Settled l) :
    Reproduces l skip (total.grow items closing) ((run.grow items closing).run l j) := by
  obtain ⟨start, k, hstart, -, hrun⟩ := h
  refine ⟨start.grow items closing, ?_⟩
  have hopening := SoloRun.opening?_grow hstart items closing
  cases hlive : run.status.isLive with
  | true =>
    have heq : start.run l k = run := by
      rcases hrun with heq | hshows
      · exact heq
      · rw [hshows.stopped] at hlive
        cases hlive
    rcases start.run_grow l items closing k with ⟨-, k', hk'⟩ | ⟨k', hk'⟩
    · rw [heq] at hk'
      have hsum : (start.grow items closing).run l (k' + j) =
          (run.grow items closing).run l j := by
        rw [SoloRun.run_add, hk']
      exact ⟨k' + j, hopening, hsum ▸ hsettled, .inl hsum⟩
    · have hstopped := hk'.stopped
      rw [heq, hlive] at hstopped
      cases hstopped
  | false =>
    rw [SoloRun.run_of_stopped (s := run.grow items closing) hlive]
    have hstopped : (start.run l k).status.isLive = false := by
      rcases hrun with heq | hshows
      · rw [heq]
        exact hlive
      · exact hshows.stopped_right
    rcases start.run_grow l items closing k with ⟨hlive', -⟩ | ⟨k', hk'⟩
    · rw [hstopped] at hlive'
      cases hlive'
    · refine ⟨k', hopening, SoloRun.settled_of_stopped hk'.stopped_right, .inr ?_⟩
      have hgrown : (run.grow items closing).Foreshows (start.run l k) := by
        rcases hrun with heq | hshows
        · rw [heq]
          exact ⟨hlive, rfl, .same _⟩
        · exact ⟨hlive, hshows.output_eq, hshows.status⟩
      exact hgrown.trans hk'

/-! ### What a history comes to -/

/-- Nothing is left to do, and the session, or what was last seen of it, shows a run with the
property `P`. -/
def Shows (P : SoloRun τ π → Prop) (l : Lexer τ π) (s x : Nat) (n : Network τ π)
    (σ : Session τ π) : Prop :=
  n.agenda = [] ∧ n.lexer = l ∧ ∃ run : SoloRun τ π, P run ∧
    σ.output = run.output ∧ σ.status = run.status ∧
    (n.Idles s x run ∨ (n.sessions[x]? = some none ∧ run.status.isLive = false))

/-- Nothing is left to do, and the session, or what was last seen of it, shows what a run on all
of the source comes to. -/
def Stands (l : Lexer τ π) (s skip x : Nat) (total : Source Char) (n : Network τ π)
    (σ : Session τ π) : Prop :=
  n.agenda = [] ∧ n.lexer = l ∧ ∃ run : SoloRun τ π, Reproduces l skip total run ∧
    σ.output = run.output ∧ σ.status = run.status ∧
    (n.Idles s x run ∨ (n.sessions[x]? = some none ∧ run.status.isLive = false))

theorem shows_of_idles (hidles : n.Idles s x run) (hlexer : n.lexer = l) (hrun : P run) :
    Shows P l s x n ((n.session? x).getD σ) := by
  obtain ⟨listeners, hσ⟩ := hidles.attends.hosts.session
  rw [hσ]
  exact ⟨hidles.agenda_eq, hlexer, run, hrun, rfl, rfl, .inl hidles⟩

theorem session?_of_gone (h : n.sessions[x]? = some none) : n.session? x = none := by
  rw [Network.session?, h]
  rfl

theorem shows_of_gone (hgone : n.sessions[x]? = some none) (hagenda : n.agenda = [])
    (hlexer : n.lexer = l) (hrun : P run) (hstopped : run.status.isLive = false)
    (houtput : σ.output = run.output) (hstatus : σ.status = run.status) :
    Shows P l s x n ((n.session? x).getD σ) := by
  rw [session?_of_gone hgone]
  exact ⟨hagenda, hlexer, run, hrun, houtput, hstatus, .inr ⟨hgone, hstopped⟩⟩

namespace Network

theorem Attends.ahead_eq (h : n.Attends s x false run) : n.ahead x run = run := by
  have hunderway := h.underway
  rw [ahead]
  cases hown : Task.own x n.agenda with
  | nil => rfl
  | cons task rest =>
    rw [hown] at hunderway
    cases hunderway

def grown (n : Network τ π) (s : Nat) (items : List Char) (closing : Bool) : Network τ π :=
  (n.modifySource s (·.grow items closing)).schedule (n.inputTellings s items)

theorem wiring_grown (s : Nat) (items : List Char) (closing : Bool) :
    (n.grown s items closing).wiring = n.wiring :=
  (wiring_schedule _).trans (wiring_modifySource s _)

theorem grant_push (text : List Char) {source : Source Char} (hsource : n.source? s = some source) :
    n.grant (.source (.push s text)) =
      if source.closed then n else n.grown s text false := by
  have hpush : (fun source : Source Char => source.push text) = (·.grow text false) :=
    funext fun source => source.push_eq_grow text
  rw [grant, hsource, grown, ← hpush]

theorem grant_close : n.grant (.source (.close s)) = n.grown s [] true := by
  have hclose : (fun source : Source Char => source.close) = (·.grow [] true) :=
    funext fun source => source.close_eq_grow
  rw [grant, grown, ← hclose]

theorem Idles.attends_grown (h : n.Idles s x run) (items : List Char) (closing : Bool) :
    (n.grown s items closing).Attends s x false (run.grow items closing) := by
  have hforeign := foreign_inputTellings (n := n) (s := s) (x := x) s items
  have hagenda : (n.grown s items closing).agenda = n.inputTellings s items := by
    rw [grown, schedule, modifySource, h.agenda_eq, List.append_nil]
  have hwiring := n.wiring_grown s items closing
  have hhosts := h.attends.hosts.modifySource (·.grow items closing)
  refine ⟨h.attends.apart.of_wiring_eq hwiring, fun q hq => ?_, ⟨hhosts.source, hhosts.session⟩,
    ?_, .inr (.inl ⟨rfl, ?_⟩)⟩
  · rw [hagenda] at hq
    exact (hforeign _ hq).spares q rfl
  · rw [hagenda, Task.own_of_foreign hforeign]
    exact .idle
  · obtain ⟨k, hk⟩ := h.notified
    refine ⟨k, items, ?_, hk.of_wiring_eq hwiring⟩
    obtain ⟨i, hi, hu⟩ := Option.bind_eq_some_iff.1 hk
    rw [hagenda, inputTellings, hi]
    exact List.mem_map_of_mem (List.mem_range.2 (List.getElem?_eq_some_iff.1 hu).1)

theorem ask_succ (hagenda : n.agenda = []) (r : Request) (fuel : Nat) :
    n.ask r (fuel + 1) = (n.grant r).settle fuel := by
  have hnetwork : ({ n with agenda := [] } : Network τ π) = n := by
    rw [← hagenda]
  rw [ask, settle, schedule, hagenda]
  simp only [List.append_nil, List.isEmpty_cons, Bool.false_eq_true, if_false, step, perform,
    hnetwork]

theorem settle_of_idle (hagenda : n.agenda = []) (fuel : Nat) : n.settle fuel = n := by
  cases fuel with
  | zero => rfl
  | succ fuel =>
    rw [settle, hagenda]
    rfl

theorem Idles.settle_grown (h : n.Idles s x run) (items : List Char) (closing : Bool) {fuel : Nat}
    (hreturns : ((n.grown s items closing).settle fuel).agenda = []) :
    ∃ j, ((run.grow items closing).run n.lexer j).Settled n.lexer ∧
      ((n.grown s items closing).settle fuel).Idles s x
        ((run.grow items closing).run n.lexer j) := by
  have hattends := h.attends_grown items closing
  obtain ⟨j, hattends', hsettled⟩ := hattends.settle_of_returns hreturns
  rw [hattends.ahead_eq] at hattends' hsettled
  obtain ⟨k, hk⟩ := h.notified
  refine ⟨j, hsettled, hattends', ⟨k, hk.of_wiring_eq ?_⟩, hreturns⟩
  exact (wiring_settle fuel).trans (wiring_grown s items closing)

theorem Idles.settle_push (h : n.Idles s x run) (text : List Char) {fuel : Nat}
    (hreturns : ((n.grant (.source (.push s text))).settle fuel).agenda = []) :
    ∃ j, ((run.grow text false).run n.lexer j).Settled n.lexer ∧
      ((n.grant (.source (.push s text))).settle fuel).Idles s x
        ((run.grow text false).run n.lexer j) := by
  rw [grant_push text h.attends.hosts.source] at hreturns ⊢
  split_ifs at hreturns ⊢ with hclosed
  · -- the text is dropped
    have hsame : run.grow text false = run := by
      rw [SoloRun.grow, Feed.grow_of_closed hclosed]
    rw [hsame, settle_of_idle h.agenda_eq]
    exact ⟨0, h.settled, h⟩
  · exact h.settle_grown text false hreturns

theorem Idles.settle_close (h : n.Idles s x run) {fuel : Nat}
    (hreturns : ((n.grant (.source (.close s))).settle fuel).agenda = []) :
    ∃ j, ((run.grow [] true).run n.lexer j).Settled n.lexer ∧
      ((n.grant (.source (.close s))).settle fuel).Idles s x
        ((run.grow [] true).run n.lexer j) := by
  rw [grant_close] at hreturns ⊢
  exact h.settle_grown [] true hreturns

end Network

theorem Shows.ask {r : Request} {items : List Char} {closing : Bool} {fuel : Nat}
    (h : Shows P l s x n σ)
    (hgrant : ∀ {run : SoloRun τ π} {fuel : Nat}, n.Idles s x run →
      ((n.grant r).settle fuel).agenda = [] →
      ∃ j, ((run.grow items closing).run n.lexer j).Settled n.lexer ∧
        ((n.grant r).settle fuel).Idles s x ((run.grow items closing).run n.lexer j))
    (hgrows : ∀ {run : SoloRun τ π} {j : Nat}, P run →
      ((run.grow items closing).run l j).Settled l → Q ((run.grow items closing).run l j))
    (hreturns : (n.ask r fuel).agenda = []) :
    Shows Q l s x (n.ask r fuel) (((n.ask r fuel).session? x).getD σ) := by
  obtain ⟨hagenda, rfl, run, hrun, houtput, hstatus, hstands⟩ := h
  have hwiring : (n.ask r fuel).wiring = n.wiring :=
    (Network.wiring_settle fuel).trans (Network.wiring_schedule _)
  have hlexer : (n.ask r fuel).lexer = n.lexer := congrArg Wiring.lexer hwiring
  rcases hstands with hidles | ⟨hgone, hstopped⟩
  · cases fuel with
    | zero => cases hreturns
    | succ fuel =>
      rw [Network.ask_succ hagenda] at hreturns hlexer ⊢
      obtain ⟨j, hsettled, hidles'⟩ := hgrant hidles hreturns
      exact shows_of_idles hidles' hlexer (hgrows hrun hsettled)
  · have hgrown := hgrows (j := 0) hrun (SoloRun.settled_of_stopped hstopped)
    exact shows_of_gone (Network.gone_of_wiring_eq hwiring hgone) hreturns hlexer hgrown hstopped
      houtput hstatus

theorem Shows.elsewhere (h : Shows P l s x n σ) (helse : n.Elsewhere s x n') :
    Shows P l s x n' ((n'.session? x).getD σ) := by
  obtain ⟨hagenda, rfl, run, hrun, houtput, hstatus, hstands⟩ := h
  rcases hstands with hidles | ⟨hgone, hstopped⟩
  · have hx := Network.lt_size_of_hosts hidles.attends.hosts
    obtain ⟨-, hlexer⟩ := Network.settled_elsewhere hagenda hx helse
    exact shows_of_idles (hidles.elsewhere helse) hlexer hrun
  · have hx := (Array.getElem?_eq_some_iff.1 hgone).1
    obtain ⟨hagenda', hlexer⟩ := Network.settled_elsewhere hagenda hx helse
    exact shows_of_gone (Network.gone_elsewhere hgone helse) hagenda' hlexer hrun hstopped
      houtput hstatus

namespace Network

theorem attends_launch {source : Source Char} (offset : Nat) (feed : Feed Char)
    (hagenda : n.agenda = []) (hsource : n.source? s = some source)
    (hapart : n.Apart s n.sessions.size) :
    ((n.modifySource s fun _ => feed.source).launch s offset feed.reader).Attends s
        n.sessions.size true ⟨.start n.lexer.rules offset, feed, .fresh, .stepping⟩ ∧
      ((n.modifySource s fun _ => feed.source).launch s offset feed.reader).ahead
        n.sessions.size ⟨.start n.lexer.rules offset, feed, .fresh, .stepping⟩ =
          ⟨.start n.lexer.rules offset, feed, .fresh, .stepping⟩ := by
  have htasks : ((n.modifySource s fun _ => feed.source).launch s offset feed.reader).agenda =
      [.drain n.sessions.size] := by
    rw [launch, schedule, modifySource, hagenda]
    rfl
  have hown : Task.own n.sessions.size [(.drain n.sessions.size : Task τ)] =
      [.drain n.sessions.size] := Task.own_cons rfl
  refine ⟨⟨?_, fun q hq => ?_, ⟨?_, [], ?_⟩, ?_, .inl ?_⟩, ?_⟩
  · exact apart_launch (hapart.of_wiring_eq (wiring_modifySource s _)) (.inr rfl) offset feed.reader
  · rw [htasks] at hq
    cases List.mem_singleton.1 hq
  · have hfed : (n.modifySource s fun _ => feed.source).source? s = some feed.source := by
      rw [source?_modifySource_self, hsource]
      rfl
    exact hfed
  · exact session?_launch_size (n := n.modifySource s fun _ => feed.source) s offset feed.reader
  · rw [htasks, hown]
    exact .drain
  · rw [htasks, hown]
    exact ⟨_, List.mem_singleton_self _, trivial⟩
  · rw [ahead, htasks, hown]
    rfl

theorem notifies_subscribe {source : Source Char} (hsource : n.source? s = some source) :
    ∃ k, (n.subscribe s (.session x)).Notifies s k x := by
  obtain ⟨i, hi, -⟩ := Option.map_eq_some_iff.1 hsource
  refine ⟨i.subscribers.length, ?_⟩
  rw [Notifies, subscribe, Array.getElem?_modify, if_pos rfl, hi, Option.map_some,
    Option.bind_some, List.getElem?_concat_length]

end Network

theorem SessionStatus.not_isLive_of_error? {status : SessionStatus} {e : LexError}
    (h : status.error? = some e) : status.isLive = false := by
  cases status with
  | failed => rfl
  | terminated => rfl
  | cancelled => rfl
  | stepping => cases h
  | backtracking => cases h

/-- After its first drain a session is told about its source from then on, or is gone because it
failed on what was there. -/
theorem shows_enroll (hattends : n.Attends s x false run) (hagenda : n.agenda = [])
    (hlexer : n.lexer = l) (hrun : P run) (hσ : n.session? x = some σ) :
    Shows P l s x (n.enroll s x).2 σ := by
  obtain ⟨listeners, hsession⟩ := hattends.hosts.session
  obtain rfl := Option.some.inj (hsession.symm.trans hσ)
  have hkeeps : Network.Keeps s x n (n.subscribe s (.session x)) :=
    .subscribe s fun r hr => nomatch hr
  unfold Network.enroll
  rw [hsession, Option.bind_some]
  cases herror : run.status.error? with
  | none =>
    have hidles : (n.subscribe s (.session x)).Idles s x run :=
      ⟨(hattends.of_keeps hagenda hkeeps).1, Network.notifies_subscribe hattends.hosts.source,
        hagenda⟩
    exact ⟨hagenda, hlexer, run, hrun, rfl, rfl, .inl hidles⟩
  | some e =>
    have hgone : (n.drop x).sessions[x]? = some none := by
      have hx := Network.lt_size_of_hosts hattends.hosts
      rw [Network.drop, Array.getElem?_modify, if_pos rfl, Array.getElem?_eq_getElem hx]
      rfl
    exact ⟨hagenda, hlexer, run, hrun, rfl, rfl,
      .inr ⟨hgone, SessionStatus.not_isLive_of_error? herror⟩⟩

theorem shows_opened {m : Network τ π} {source : Source Char} {fuel : Nat}
    (hagenda : n.agenda = []) (hsource : n.source? s = some source)
    (hapart : n.Apart s n.sessions.size) (hstart : n.start s skip fuel = (.ok x, m))
    (hreturns : m.agenda = []) (hσ : m.session? x = some σ)
    (hruns : ∀ {start : SoloRun τ π} {k : Nat}, SoloRun.opening? n.lexer source skip = some start →
      (start.run n.lexer k).Settled n.lexer → P (start.run n.lexer k)) :
    Shows P n.lexer s x (n.openSession s skip fuel).2 σ := by
  have hopen : (n.openSession s skip fuel).2 = (m.enroll s x).2 := by
    rw [Network.openSession, hstart]
  rcases hskip : Network.skipFrom ⟨source, .of source⟩ source.pulled skip with ⟨passed, feed⟩
  simp only [Network.start, hsource, Option.getD_some, hskip] at hstart
  cases passed with
  | error offset => cases hstart
  | ok offset =>
    obtain ⟨hx, rfl⟩ := Prod.mk.inj hstart
    obtain rfl := Except.ok.inj hx
    obtain ⟨hlaunch, hahead⟩ := Network.attends_launch offset feed hagenda hsource hapart
    obtain ⟨k, hattends, hsettled⟩ := hlaunch.settle_of_returns hreturns
    rw [hahead] at hattends hsettled
    have hopening : SoloRun.opening? n.lexer source skip =
        some ⟨.start n.lexer.rules offset, feed, .fresh, .stepping⟩ := by
      rw [SoloRun.opening?, hskip]
    have hlexer := congrArg Wiring.lexer (Network.wiring_settle (n := (n.modifySource s fun _ =>
      feed.source).launch s offset feed.reader) fuel)
    rw [hopen]
    exact shows_enroll hattends hreturns hlexer (hruns hopening hsettled) hσ

theorem Streamed.stands (h : Streamed l s skip x total n σ) : Stands l s skip x total n σ := by
  induction h with
  | opened hlexer hagenda hsource hapart hstart hreturns hσ =>
    subst hlexer
    exact shows_opened hagenda hsource hapart hstart hreturns hσ
      fun hopening hsettled => ⟨_, _, hopening, hsettled, .inl rfl⟩
  | push h text fuel hreturns ih =>
    rw [Source.push_eq_grow]
    exact Shows.ask ih (fun hidles hreturns => hidles.settle_push text hreturns)
      (fun hrun hsettled => hrun.grow text false hsettled) hreturns
  | close h fuel hreturns ih =>
    rw [Source.close_eq_grow]
    exact Shows.ask ih (fun hidles hreturns => hidles.settle_close hreturns)
      (fun hrun hsettled => hrun.grow [] true hsettled) hreturns
  | elsewhere h helse ih => exact Shows.elsewhere ih helse

/-- Two histories in which the same input has come, in whatever pieces, and the source is closed
in both or in none: the sessions have emitted the same items and have the same status. -/
theorem streams_agree {s' x' : Nat} {σ' : Session τ π}
    (h : Streamed l s skip x total n σ) (h' : Streamed l s' skip x' total n' σ') :
    σ.items = σ'.items ∧ σ.status.Agrees σ'.status := by
  obtain ⟨-, -, run, ⟨start, j, hstart, hj, hrun⟩, houtput, hstatus, -⟩ := h.stands
  obtain ⟨-, -, run', ⟨start', k, hstart', hk, hrun'⟩, houtput', hstatus', -⟩ := h'.stands
  obtain rfl : start = start' := Option.some.inj (hstart.symm.trans hstart')
  rw [SoloRun.run_eq_of_settled hj hk] at hrun
  have hshows : ∀ {r : SoloRun τ π}, start.run l k = r ∨ r.Foreshows (start.run l k) →
      r.output = (start.run l k).output ∧ r.status.Foreshows (start.run l k).status := by
    intro r hr
    rcases hr with rfl | hr
    · exact ⟨rfl, .same _⟩
    · exact ⟨hr.output_eq.symm, hr.status⟩
  obtain ⟨hout, hst⟩ := hshows hrun
  obtain ⟨hout', hst'⟩ := hshows hrun'
  refine ⟨?_, ?_⟩
  · rw [Session.items, Session.items, houtput, houtput', hout, hout']
  · rw [hstatus, hstatus']
    exact hst.agrees hst'

end

/-! ### A history in pieces -/

namespace Network

def sample (text : List Char) : Network String Unit :=
  ((fresh .sample).addSource ⟨text, 0, false⟩).2

theorem request_not_mem_sample (state : StateId) {rule : Rule String Unit}
    (hrule : rule ∈ Lexer.sample.rules.rules state) (matched : Matched) (payloads : Payloads Unit)
    (r : SourceRequest Char) :
    .request r ∉ (rule.action.perform matched payloads).2.effects := by
  obtain ⟨index⟩ := state
  cases index with
  | succ i => cases hrule
  | zero =>
    simp only [Lexer.sample, RuleTable.rules, List.getElem?_cons_zero, List.mem_cons,
      List.not_mem_nil, or_false] at hrule
    have hsingle : ∀ effect : Effect String, (∀ r, effect ≠ .request r) → .request r ∉ [effect] :=
      fun effect heffect hr => heffect r (List.mem_singleton.1 hr).symm
    rcases hrule with rfl | rfl | rfl | rfl
    · exact hsingle (.emit _) fun r => by rintro ⟨⟩
    · exact hsingle (.emit _) fun r => by rintro ⟨⟩
    · exact List.not_mem_nil
    · exact hsingle .close fun r => by rintro ⟨⟩

theorem asks_sample (text : List Char) (P : Request → Prop) : (sample text).Asks P where
  actions := fun state _ hrule matched payloads r hr =>
    (request_not_mem_sample state hrule matched payloads r hr).elim
  subscribers := by
    intro t i hi r hr
    cases t with
    | zero =>
      obtain rfl := Option.some.inj hi
      cases hr
    | succ t => cases hi
  listeners := fun y σ hσ => by cases hσ

theorem apart_sample (text : List Char) : (sample text).Apart 0 0 where
  asks := asks_sample text _
  readers := fun y σ hσ => by cases hσ

end Network

theorem streamed_sample (text : List Char) {σ : Session String Unit}
    (hstart : ((Network.sample text).start 0 0 60).1.toOption = some 0)
    (hreturns : ((Network.sample text).start 0 0 60).2.agenda = [])
    (hσ : ((Network.sample text).start 0 0 60).2.session? 0 = some σ) :
    Streamed .sample 0 0 0 ⟨text, 0, false⟩ ((Network.sample text).openSession 0 0 60).2 σ := by
  cases h : ((Network.sample text).start 0 0 60).1 with
  | error offset =>
    rw [h] at hstart
    cases hstart
  | ok x =>
    rw [h] at hstart
    obtain rfl := Option.some.inj hstart
    exact .opened rfl rfl rfl (Network.apart_sample text) (Prod.ext h rfl) hreturns hσ

/-- All of a text at once, or in three pieces: the error shows more in the first history. -/
theorem streams_agree_sample : ∃ (n n' : Network String Unit) (σ σ' : Session String Unit),
    Streamed .sample 0 0 0 ⟨"if 9a".toList, 0, false⟩ n σ ∧
      Streamed .sample 0 0 0 ⟨"if 9a".toList, 0, false⟩ n' σ' ∧
      (σ.items = σ'.items ∧ σ.status.Agrees σ'.status) ∧ σ.items = ["IF"] ∧
      σ.status = .failed (.deadEnd ⟨3, 1, 4⟩ "9a") ∧
      σ'.status = .failed (.deadEnd ⟨3, 1, 4⟩ "9") := by
  have hwhole := streamed_sample "if 9a".toList (by decide +kernel) (by decide +kernel)
    (Option.some_get (by decide +kernel)).symm
  have hbegun := streamed_sample "i".toList (by decide +kernel) (by decide +kernel)
    (Option.some_get (by decide +kernel)).symm
  have hpieces := (hbegun.push "f 9".toList 60 (by decide +kernel)).push "a".toList 60
    (by decide +kernel)
  exact ⟨_, _, _, _, hwhole, hpieces, streams_agree hwhole hpieces, by decide +kernel,
    by decide +kernel, by decide +kernel⟩

end DerivativeLexer
