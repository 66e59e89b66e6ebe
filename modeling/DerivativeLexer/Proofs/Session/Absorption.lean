import DerivativeLexer.Proofs.Lexer.Silenced
import DerivativeLexer.Proofs.Session.Growing

/-! # Nothing that comes is lost

Whatever actions and listeners add to the source of a session while it works, when nothing is left
to do the session has taken it in: it has stopped, or it waits where its source is plugged. And what
it has come to is what it would have come to if nobody had added anything meanwhile and all of the
input had come at once. -/

namespace DerivativeLexer

variable {τ π : Type}

/-- The session waits for more input: there is nothing to read, the source is open, and the match
in progress is neither hopeless nor settled. -/
structure Session.Starves (σ : Session τ π) (source : Source Char) : Prop where
  plugged : (⟨source, σ.reader⟩ : Feed Char).plugged σ.engine.position.offset = true
  opened : source.closed = false
  promising : σ.engine.matching.rejects = false
  unsettled : σ.engine.matching.settled = false

/-- A history of a session that starts when there is no more in its source than what it skips, gets
the rest of `total` by a single push, and then the source may be closed. -/
inductive AtOnce (l : Lexer τ π) (s skip x : Nat) :
    (total : Source Char) → Network τ π → Session τ π → Prop
  | pushed {n : Network τ π} {σ : Session τ π} {text : List Char} {pulled fuel : Nat}
      (h : Streamed l s skip x ⟨text.take skip, pulled, false⟩ n σ)
      (hreturns : (n.ask (.source (.push s (text.drop skip))) fuel).agenda = []) :
      AtOnce l s skip x ⟨text, pulled, false⟩ (n.ask (.source (.push s (text.drop skip))) fuel)
        (((n.ask (.source (.push s (text.drop skip))) fuel).session? x).getD σ)
  | closed {n : Network τ π} {σ : Session τ π} {total : Source Char} {fuel : Nat}
      (h : AtOnce l s skip x total n σ)
      (hreturns : (n.ask (.source (.close s)) fuel).agenda = []) :
      AtOnce l s skip x total.close (n.ask (.source (.close s)) fuel)
        (((n.ask (.source (.close s)) fuel).session? x).getD σ)

theorem SessionStatus.Agrees.label_eq {status status' : SessionStatus}
    (h : status.Agrees status') : status.label = status'.label := by
  cases status with
  | failed e =>
    cases status' with
    | failed e' => rfl
    | _ => cases h
  | _ =>
    cases h
    rfl

section

variable {l : Lexer τ π} {n : Network τ π} {s skip x : Nat} {total source : Source Char}
  {σ : Session τ π} {run run' : SoloRun τ π}

/-! ### Runs on the same source -/

theorem SoloRun.shows {later : SoloRun τ π} (h : later = run ∨ run.Foreshows later) :
    run.output = later.output ∧ run.status.Foreshows later.status := by
  rcases h with rfl | hshows
  · exact ⟨rfl, .same _⟩
  · exact ⟨hshows.output_eq.symm, hshows.status⟩

theorem Reproduces.agrees (h : Reproduces l skip total run) (h' : Reproduces l skip total run') :
    run.output = run'.output ∧ run.status.Agrees run'.status := by
  obtain ⟨start, j, hstart, hj, hrun⟩ := h
  obtain ⟨start', k, hstart', hk, hrun'⟩ := h'
  obtain rfl : start = start' := Option.some.inj (hstart.symm.trans hstart')
  rw [SoloRun.run_eq_of_settled hj hk] at hrun
  obtain ⟨houtput, hstatus⟩ := SoloRun.shows hrun
  obtain ⟨houtput', hstatus'⟩ := SoloRun.shows hrun'
  exact ⟨houtput.trans houtput'.symm, hstatus.agrees hstatus'⟩

theorem SoloRun.opening?_silenced (l : Lexer τ π) (source : Source Char) (skip : Nat) :
    opening? l.silenced source skip = opening? l source skip := by
  simp only [opening?, Lexer.silenced, Engine.start_silenced]

theorem reproduces_silenced_iff :
    Reproduces l.silenced skip total run ↔ Reproduces l skip total run := by
  simp only [Reproduces, SoloRun.opening?_silenced, SoloRun.run_silenced,
    SoloRun.settled_silenced]

/-! ### All of the input at once -/

theorem AtOnce.streamed (h : AtOnce l s skip x total n σ) : Streamed l s skip x total n σ := by
  induction h with
  | @pushed n σ text pulled fuel h hreturns =>
    have htotal : (⟨text.take skip, pulled, false⟩ : Source Char).push (text.drop skip) =
        ⟨text, pulled, false⟩ := by
      simp [Source.push]
    rw [← htotal]
    exact h.push (text.drop skip) fuel hreturns
  | closed h hreturns ih => exact ih.close _ hreturns

/-- With a lexer whose actions ask for nothing, all of the input can be given at once. -/
theorem exists_atOnce (l : Lexer τ π)
    (hactions : ∀ state, ∀ rule ∈ l.rules.rules state, ∀ matched payloads r,
      .request r ∉ (rule.action.perform matched payloads).2.effects)
    (hskip : skip ≤ total.queue.length) : ∃ n σ, AtOnce l 0 skip 0 total n σ := by
  let first : Source Char := ⟨total.queue.take skip, total.pulled, false⟩
  have hfirst : (⟨first, .of first⟩ : Feed Char).Reached first.pulled :=
    ⟨Nat.le_refl _, Nat.le_refl _⟩
  have hlength : ((⟨first, .of first⟩ : Feed Char).textFrom first.pulled).length = skip := by
    rw [Feed.textFrom_of, List.length_take, Nat.min_eq_left hskip]
  obtain ⟨offset, feed, hskipped⟩ : ∃ offset feed,
      Network.skipFrom ⟨first, .of first⟩ first.pulled skip = (.ok offset, feed) := by
    rcases Network.skipFrom_cases hfirst skip with ⟨offset, feed, hskipped, -⟩ | ⟨_, _, -, hlt⟩
    · exact ⟨offset, feed, hskipped⟩
    · exact (Nat.ne_of_lt hlt hlength).elim
  have hfresh := (Network.rests_fresh l hactions).addSource first
  obtain ⟨n, σ, hopened, hrests⟩ := Streamed.exists_opened (s := 0) hfresh rfl
    (fun y σ hσ => by cases hσ) hskipped
  obtain ⟨fuel, hrests'⟩ := hrests.ask (.push 0 (total.queue.drop skip))
  have hpushed : AtOnce l 0 skip 0 ⟨total.queue, total.pulled, false⟩ _ _ :=
    .pushed hopened hrests'.agenda_eq
  obtain ⟨queue, pulled, closed⟩ := total
  cases closed with
  | false => exact ⟨_, _, hpushed⟩
  | true =>
    obtain ⟨fuel', hrests''⟩ := hrests'.ask (.close 0)
    exact ⟨_, _, hpushed.closed hrests''.agenda_eq⟩

/-! ### Operations are histories -/

/-- What the tasks that `settle` does make of the source `s`, if nobody reads from it. -/
def Network.fed (s : Nat) (total : Source Char) (n : Network τ π) : Nat → Source Char
  | 0 => total
  | fuel + 1 =>
    match n.agenda with
    | [] => total
    | task :: _ => n.step.fed s (task.feed s total) fuel

/-- What every task keeps of a source and a network, `settle` keeps. -/
theorem Network.settle_fed {P : Source Char → Network τ π → Prop}
    (hnext : ∀ {total n n' task}, P total n → n.Happens (.task task []) n' →
      P (task.feed s total) n') (h : P total n) (fuel : Nat) :
    P (n.fed s total fuel) (n.settle fuel) := by
  induction fuel generalizing total n with
  | zero => exact h
  | succ fuel ih =>
    rw [fed, settle]
    cases hagenda : n.agenda with
    | nil => exact h
    | cons task rest => exact ih (hnext h (.task hagenda (.inl rfl)))

theorem FirstDrain.settle (h : FirstDrain l s skip x total n) (fuel : Nat) :
    FirstDrain l s skip x (n.fed s total fuel) (n.settle fuel) :=
  Network.settle_fed (P := FirstDrain l s skip x) (fun h hnext => h.next hnext trivial trivial) h
    fuel

theorem Served.settle (h : Served l s skip x total n) (fuel : Nat) :
    Served l s skip x (n.fed s total fuel) (n.settle fuel) :=
  Network.settle_fed (P := Served l s skip x) (fun h hnext => h.next hnext trivial) h fuel

theorem Served.ask (h : Served l s skip x total n) (hagenda : n.agenda = []) (r : Request)
    (fuel : Nat) :
    Served l s skip x ((n.schedule [.request r]).fed s total fuel) (n.ask r fuel) :=
  (h.next (.call r hagenda) trivial).settle fuel

section

variable {offset : Nat} {feed : Feed Char}

theorem FirstDrain.start (h : n.Reachable l) (hagenda : n.agenda = [])
    (hsource : n.source? s = some source) (hreaders : ∀ y ρ, n.session? y = some ρ → ρ.input ≠ s)
    (hskip : Network.skipFrom ⟨source, .of source⟩ source.pulled skip = (.ok offset, feed))
    (fuel : Nat) :
    FirstDrain l s skip n.sessions.size
      (((n.modifySource s fun _ => feed.source).launch s offset feed.reader).fed s source fuel)
      (n.start s skip fuel).2 := by
  rw [Network.start_of_skipFrom hsource hskip]
  exact (FirstDrain.launch h hagenda hsource hreaders hskip).settle fuel

/-- A session that has not failed on what was there when it started is served from then on. -/
theorem Served.openSession (h : n.Reachable l) (hagenda : n.agenda = [])
    (hsource : n.source? s = some source) (hreaders : ∀ y ρ, n.session? y = some ρ → ρ.input ≠ s)
    (hskip : Network.skipFrom ⟨source, .of source⟩ source.pulled skip = (.ok offset, feed))
    {fuel : Nat} (hreturns : (n.start s skip fuel).2.agenda = [])
    (hkept : ((n.start s skip fuel).2.session? n.sessions.size).bind (·.status.error?) = none) :
    Served l s skip n.sessions.size
      (((n.modifySource s fun _ => feed.source).launch s offset feed.reader).fed s source fuel)
      (n.openSession s skip fuel).2 := by
  have hfirst := FirstDrain.start h hagenda hsource hreaders hskip fuel
  have hopen : (n.openSession s skip fuel).2 =
      (n.start s skip fuel).2.subscribe s (.session n.sessions.size) := by
    rw [Network.start_of_skipFrom hsource hskip] at hkept
    rw [Network.openSession, Network.start_of_skipFrom hsource hskip]
    simp only [Network.enroll, hkept]
  rw [hopen]
  exact .enroll hfirst hreturns

end

/-! ### At rest -/

theorem Network.Reachable.starves (h : n.Reachable l) (hagenda : n.agenda = [])
    (hσ : n.session? x = some σ) (hsettled : (σ.alone source).Settled l)
    (hlive : σ.status.isLive = true) : σ.Starves source := by
  obtain rfl := h.lexer_eq
  have hstage := h.stage hσ
  rw [hagenda] at hstage
  rcases hstage.at_rest with ⟨-, hcalm⟩ | ⟨-, hfinal, -⟩
  · have hplaced : Engine.Placed n.lexer.rules (⟨source, σ.reader⟩ : Feed Char).reader
        σ.engine := hcalm.placed
    obtain ⟨read, ahead, htracks⟩ := hplaced.tracks
    obtain ⟨hplugged, hopen, hrejects, hunsettled⟩ :=
      Engine.rests_of_move htracks (hsettled hlive)
    exact ⟨hplugged, hopen, hrejects, hunsettled⟩
  · rw [hfinal.not_isLive] at hlive
    cases hlive

/-- Actions and listeners may add to the source of a session while it works, and close it. When
nothing is left to do after the first drain of the session, or at any later time, and the session
was not cancelled, then it waits for input where its source is plugged, unless it has stopped. It
has emitted the same items and has the same status as a session with the same patterns whose actions
ask for nothing, and to which all of the input was given at once; and there is such a session. -/
theorem absorption (h : FirstDrain l s skip x total n ∨ Served l s skip x total n)
    (hσ : n.session? x = some σ) (hcancelled : σ.cancelled = false) (hagenda : n.agenda = []) :
    (∃ source, n.source? s = some source ∧ (⟨source, σ.reader⟩ : Feed Char).Holds total ∧
        (σ.status.isLive = true → σ.Starves source)) ∧
      (∀ {s' x' n' σ'}, AtOnce l.silenced s' skip x' total n' σ' →
        σ.items = σ'.items ∧ σ.status.Agrees σ'.status ∧ σ.status.label = σ'.status.label) ∧
      ∃ n' σ', AtOnce l.silenced 0 skip 0 total n' σ' := by
  obtain ⟨hreachable, habsorbs⟩ : n.Reachable l ∧ Absorbs l s skip x total n σ := by
    rcases h with hfirst | hserved
    · exact ⟨hfirst.reachable.1, (hfirst.absorbs hσ).2 hcancelled⟩
    · exact ⟨hserved.reachable.1, (hserved.absorbs hσ hcancelled).2⟩
  obtain ⟨source, hsource, hholds, hsettled, hreproduces⟩ := habsorbs.at_rest hagenda
  refine ⟨⟨source, hsource, hholds, hreachable.starves hagenda hσ hsettled⟩, ?_, ?_⟩
  · intro s' x' n' σ' honce
    obtain ⟨-, -, run, hreference, houtput, hstatus, -⟩ := honce.streamed.stands
    obtain ⟨hsame, hagrees⟩ := hreproduces.agrees (reproduces_silenced_iff.1 hreference)
    rw [← hstatus] at hagrees
    have houtputs : σ.output = σ'.output := hsame.trans houtput.symm
    exact ⟨congrArg Source.queue houtputs, hagrees, hagrees.label_eq⟩
  · obtain ⟨start, k, hstart, -⟩ := hreproduces
    exact exists_atOnce l.silenced
      (fun state rule hrule => l.rules.request_not_mem_silenced hrule)
      (SoloRun.of_opening? hstart).2.2

end

/-! ### Letters that come while others are read -/

namespace Network

/-- A listener adds a letter, too, when it is told of the second item. -/
def answering : Network String Unit :=
  echoing.listen 0 ⟨(· == ["A"]), 1, [.source (.push 0 ['b'])]⟩

theorem served_answering : Served .echo 0 0 0 .fresh answering := by
  have hreachable : ((fresh .echo).addSource .fresh).2.Reachable .echo := ⟨_, .one (.addSource _)⟩
  have hskip : Network.skipFrom ⟨.fresh, .of .fresh⟩ 0 0 = (.ok 0, ⟨.fresh, .of .fresh⟩) := rfl
  have hreturns : (((fresh .echo).addSource .fresh).2.start 0 0 60).2.agenda = [] := by
    decide +kernel
  have hkept : ((((fresh .echo).addSource .fresh).2.start 0 0 60).2.session? 0).bind
      (·.status.error?) = none := by decide +kernel
  have hopened : Served .echo 0 0 0 .fresh echoing :=
    .openSession hreachable rfl rfl (fun y ρ hρ => by cases hρ) hskip hreturns hkept
  exact hopened.next (.listen 0 _) trivial

end Network

theorem absorption_sample :
    ∃ (n n' : Network String Unit) (σ σ' : Session String Unit) (source : Source Char),
      Served .echo 0 0 0 ⟨"abb".toList, 0, false⟩ n ∧ n.agenda = [] ∧ n.session? 0 = some σ ∧
        n.source? 0 = some source ∧ σ.Starves source ∧ σ.items = ["a", "A", "b", "b"] ∧
        AtOnce (Lexer.silenced .echo) 0 0 0 ⟨"abb".toList, 0, false⟩ n' σ' ∧
        σ'.items = ["a", "A", "b", "b"] ∧ σ'.status.label = "Stepping" := by
  have hserved := Network.served_answering.ask (by decide +kernel) (.source (.push 0 ['a'])) 60
  obtain ⟨σ, hσ⟩ : ∃ σ, (Network.answering.ask (.source (.push 0 ['a'])) 60).session? 0 = some σ :=
    ⟨_, (Option.some_get (by decide +kernel)).symm⟩
  have hended : ((Network.answering.ask (.source (.push 0 ['a'])) 60).session? 0).map
      (fun σ => (σ.items, σ.status, σ.cancelled)) =
        some (["a", "A", "b", "b"], .stepping, false) := by decide +kernel
  rw [hσ, Option.map_some, Option.some_inj, Prod.mk.injEq, Prod.mk.injEq] at hended
  obtain ⟨hitems, hstatus, hcancelled⟩ := hended
  have htotal : (Network.answering.schedule [.request (.source (.push 0 ['a']))]).fed 0 .fresh 60 =
      ⟨"abb".toList, 0, false⟩ := by decide +kernel
  have hagenda : (Network.answering.ask (.source (.push 0 ['a'])) 60).agenda = [] := by
    decide +kernel
  rw [htotal] at hserved
  obtain ⟨⟨source, hsource, -, hstarves⟩, hsame, n', σ', honce⟩ :=
    absorption (.inr hserved) hσ hcancelled hagenda
  have hlive : σ.status.isLive = true := by
    rw [hstatus]
    rfl
  obtain ⟨hitems', -, hlabel⟩ := hsame honce
  refine ⟨_, n', σ, σ', source, hserved, hagenda, hσ, hsource, hstarves hlive, hitems, honce,
    hitems'.symm.trans hitems, ?_⟩
  rw [← hlabel, hstatus]
  rfl

end DerivativeLexer
