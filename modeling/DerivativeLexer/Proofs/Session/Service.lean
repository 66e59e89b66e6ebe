import DerivativeLexer.Proofs.Session.Returning
import DerivativeLexer.Proofs.Session.Streaming

/-! # Quiet networks at work

In a network where nobody asks for anything every operation returns and leaves it so that the next
operation returns, too. Hence a text can be delivered in any pieces, and each of these histories
is there. -/

namespace DerivativeLexer

variable {τ π : Type}

namespace Network

section Quiet

variable {n n' : Network τ π} {s x y skip : Nat} {σ : Session τ π}

def Notified (n : Network τ π) : Prop :=
  ∀ y σ, n.session? y = some σ → ∃ k, n.Notifies σ.input k y

theorem Notified.of_wiring_eq (h : n.Notified) (hwiring : n'.wiring = n.wiring) :
    n'.Notified := by
  intro y σ hσ
  obtain ⟨σ₀, hσ₀, hsame⟩ := session?_wiring hwiring hσ
  obtain ⟨k, hk⟩ := h y σ₀ hσ₀
  rw [show σ₀.input = σ.input from congrArg Prod.fst hsame] at hk
  exact ⟨k, hk.of_wiring_eq hwiring⟩

/-- Nobody asks for anything, nothing is left to do, and every session will be told when its
source grows or is closed. -/
structure Rests (n : Network τ π) : Prop where
  quiet : n.Quiet
  agenda_eq : n.agenda = []
  notified : n.Notified

theorem Rests.idles (h : n.Rests) (hσ : n.session? y = some σ) :
    ∃ run, n.Idles σ.input y run ∧ run.Placed n.lexer := by
  obtain ⟨busy, run, hattends, hplaced⟩ := h.quiet.sessions y σ hσ
  obtain ⟨rfl, hahead, -⟩ := hattends.settled h.agenda_eq
  rw [hahead] at hplaced
  exact ⟨run, ⟨hattends, h.notified y σ hσ, h.agenda_eq⟩, hplaced⟩

theorem Quiet.exists_rests (h : n.Quiet) (hnotified : n.Notified) :
    ∃ fuel, (n.settle fuel).Rests := by
  obtain ⟨fuel, hreturns⟩ := h.returns
  exact ⟨fuel, h.settle fuel, hreturns, hnotified.of_wiring_eq (wiring_settle fuel)⟩

theorem Quiet.attends_of_keeps (h : n.Quiet) (hagenda : n.agenda = [])
    (hσ : n.session? y = some σ) (hkeeps : Keeps σ.input y n n') :
    ∃ busy run, n'.Attends σ.input y busy run ∧ (n'.ahead y run).Placed n'.lexer := by
  obtain ⟨busy, run, hattends, hplaced⟩ := h.sessions y σ hσ
  obtain ⟨rfl, hahead, -⟩ := hattends.settled hagenda
  obtain ⟨hattends', hahead'⟩ := hattends.of_keeps hagenda hkeeps
  refine ⟨false, run, hattends', ?_⟩
  rw [hahead', hkeeps.lexer_eq, ← hahead]
  exact hplaced

/-! ### Input -/

theorem Rests.quiet_grown (h : n.Rests) (t : Nat) (items : List Char) (closing : Bool) :
    (n.grown t items closing).Quiet where
  asks := h.quiet.asks.of_wiring_eq (wiring_grown t items closing)
  requests := by
    intro q hq
    rcases List.mem_append.1 hq with hq | hq
    · obtain ⟨k, hk⟩ := mem_inputTellings hq
      cases hk
    · exact h.quiet.requests q hq
  sessions := by
    intro y σ hσ
    by_cases ht : t = σ.input
    · subst ht
      obtain ⟨run, hidles, hplaced⟩ := h.idles hσ
      have hattends := hidles.attends_grown items closing
      refine ⟨false, run.grow items closing, hattends, ?_⟩
      rw [hattends.ahead_eq]
      exact hplaced.grow items closing
    · have hleaves : Leaves σ.input y n (n.grown t items closing) :=
        (Leaves.modifySource ht _).trans (.schedule (foreign_inputTellings t items))
      exact h.quiet.attends_of_keeps h.agenda_eq hσ
        (.of_wiring_eq hleaves (wiring_grown t items closing))

theorem Rests.quiet_grant (h : n.Rests) (r : SourceRequest Char) :
    (n.grant (.source r)).Quiet := by
  cases r with
  | push t text =>
    cases hsource : n.source? t with
    | none =>
      rw [grant, hsource]
      exact h.quiet
    | some source =>
      rw [grant_push text hsource]
      split_ifs
      · exact h.quiet
      · exact h.quiet_grown t text false
  | close t =>
    rw [grant_close]
    exact h.quiet_grown t [] true

/-- Pushing to a source and closing it return. -/
theorem Rests.ask (h : n.Rests) (r : SourceRequest Char) :
    ∃ fuel, (n.ask (.source r) fuel).Rests := by
  obtain ⟨fuel, hrests⟩ :=
    (h.quiet_grant r).exists_rests (h.notified.of_wiring_eq (wiring_grant (.source r)))
  refine ⟨fuel + 1, ?_⟩
  rw [ask_succ h.agenda_eq]
  exact hrests

/-! ### Sessions -/

theorem reached_skipFrom {f g : Feed Char} {offset stop : Nat} {k : Nat} (ho : f.Reached offset)
    (h : skipFrom f offset k = (.ok stop, g)) : g.Reached stop := by
  induction k generalizing f offset with
  | zero =>
    cases h
    exact ho
  | succ k ih =>
    rw [skipFrom] at h
    cases hhead : f.head? offset with
    | none =>
      rw [hhead] at h
      cases h
    | some taken =>
      obtain ⟨c, next⟩ := taken
      rw [hhead] at h
      exact ih (Feed.reached_of_head? ho hhead) h

theorem start_of_skipFrom {source : Source Char} {offset : Nat} {feed : Feed Char}
    (hsource : n.source? s = some source)
    (hskip : skipFrom ⟨source, .of source⟩ source.pulled skip = (.ok offset, feed)) (fuel : Nat) :
    n.start s skip fuel = (.ok n.sessions.size,
      ((n.modifySource s fun _ => feed.source).launch s offset feed.reader).settle fuel) := by
  simp only [start, hsource, Option.getD_some, hskip]
  rfl

theorem Rests.quiet_launch (h : n.Rests) {source : Source Char} {offset : Nat} {feed : Feed Char}
    (hsource : n.source? s = some source)
    (hreaders : ∀ y σ, n.session? y = some σ → σ.input ≠ s) (hreached : feed.Reached offset) :
    ((n.modifySource s fun _ => feed.source).launch s offset feed.reader).Quiet where
  asks := (h.quiet.asks.of_wiring_eq (wiring_modifySource s _)).launch s offset feed.reader
  requests := by
    intro q hq
    rcases List.mem_cons.1 hq with hq | hq
    · cases hq
    · exact h.quiet.requests q hq
  sessions := by
    intro y σ hσ
    rcases session?_launch s offset feed.reader hσ with hσ | ⟨rfl, -, hinput⟩
    · have hne : s ≠ σ.input := (hreaders y σ hσ).symm
      obtain ⟨run, hidles, -⟩ := h.idles hσ
      have hy : y < n.sessions.size := lt_size_of_hosts hidles.attends.hosts
      have hkeeps : Keeps σ.input y n (n.modifySource s fun _ => feed.source) :=
        .of_wiring_eq (.modifySource hne _) (wiring_modifySource s _)
      exact h.quiet.attends_of_keeps h.agenda_eq hσ
        (hkeeps.trans (.launch (n := n.modifySource s fun _ => feed.source) hy hne offset
          feed.reader))
    · rw [hinput]
      have hapart : n.Apart s n.sessions.size :=
        ⟨h.quiet.asks.mono fun _ hq => hq.elim, fun z ρ hρ _ => hreaders z ρ hρ⟩
      obtain ⟨hattends, hahead⟩ := attends_launch offset feed h.agenda_eq hsource hapart
      refine ⟨true, _, hattends, fun _ => ?_⟩
      rw [show (n.modifySource s fun _ => feed.source).sessions.size = n.sessions.size from rfl,
        hahead]
      exact ⟨[], _, Engine.tracks_enter n.lexer.rules hreached⟩

theorem Quiet.of_keeps (h : n.Quiet) (hagenda : n.agenda = [])
    (hasks : n'.Asks fun _ => False) (hagenda' : n'.agenda = [])
    (hkeeps : ∀ y σ, n'.session? y = some σ → ∃ σ₀, n.session? y = some σ₀ ∧
      σ.input = σ₀.input ∧ Keeps σ₀.input y n n') : n'.Quiet where
  asks := hasks
  requests := by
    intro q hq
    rw [hagenda'] at hq
    cases hq
  sessions := by
    intro y σ hσ
    obtain ⟨σ₀, hσ₀, hinput, hkeep⟩ := hkeeps y σ hσ
    rw [hinput]
    exact h.attends_of_keeps hagenda hσ₀ hkeep

/-- After its first drain a session is told about its source from then on, or it is gone. -/
theorem Quiet.rests_enroll (h : n.Quiet) (hagenda : n.agenda = [])
    (hσ : n.session? x = some σ)
    (hnotified : ∀ y ρ, n.session? y = some ρ → y ≠ x → ∃ k, n.Notifies ρ.input k y) :
    (n.enroll σ.input x).2.Rests := by
  unfold enroll
  cases (n.session? x).bind fun σ => σ.status.error? with
  | some e =>
    have hother : ∀ y ρ, (n.drop x).session? y = some ρ → n.session? y = some ρ ∧ x ≠ y := by
      intro y ρ hρ
      refine ⟨session?_of_drop hρ, ?_⟩
      intro hy
      rw [session?_drop, if_pos hy] at hρ
      cases hρ
    refine ⟨h.of_keeps hagenda (h.asks.drop x) hagenda fun y ρ hρ => ?_, hagenda,
      fun y ρ hρ => ?_⟩
    · obtain ⟨hρ, hne⟩ := hother y ρ hρ
      exact ⟨ρ, hρ, rfl, .drop hne⟩
    · obtain ⟨hρ, hne⟩ := hother y ρ hρ
      obtain ⟨k, hk⟩ := hnotified y ρ hρ hne.symm
      exact ⟨k, (Keeps.drop hne).notifies hk⟩
  | none =>
    have hkeeps : ∀ s y, Keeps s y n (n.subscribe σ.input (.session x)) :=
      fun s y => .subscribe σ.input fun r hr => nomatch hr
    refine ⟨h.of_keeps hagenda (h.asks.subscribe σ.input fun r hr => nomatch hr) hagenda
      fun y ρ hρ => ⟨ρ, hρ, rfl, hkeeps ρ.input y⟩, hagenda, fun y ρ hρ => ?_⟩
    have hρ' : n.session? y = some ρ := hρ
    by_cases hy : y = x
    · subst hy
      obtain rfl := Option.some.inj (hσ.symm.trans hρ')
      obtain ⟨busy, run, hattends, -⟩ := h.sessions y σ hσ
      exact notifies_subscribe hattends.hosts.source
    · obtain ⟨k, hk⟩ := hnotified y ρ hρ' hy
      exact ⟨k, (hkeeps ρ.input y).notifies hk⟩

/-- A session can be started on a source that nobody reads, and the call returns. -/
theorem Rests.start (h : n.Rests) {source : Source Char} {offset : Nat} {feed : Feed Char}
    (hsource : n.source? s = some source)
    (hreaders : ∀ y σ, n.session? y = some σ → σ.input ≠ s)
    (hskip : skipFrom ⟨source, .of source⟩ source.pulled skip = (.ok offset, feed)) :
    ∃ m fuel σ, n.start s skip fuel = (.ok n.sessions.size, m) ∧ m.agenda = [] ∧
      m.session? n.sessions.size = some σ ∧ (m.enroll s n.sessions.size).2.Rests := by
  have hreached : feed.Reached offset :=
    reached_skipFrom ⟨Nat.le_refl _, Nat.le_refl _⟩ hskip
  have hquiet := h.quiet_launch hsource hreaders hreached
  obtain ⟨fuel, hreturns⟩ := hquiet.returns
  have hwiring := wiring_settle (n := (n.modifySource s fun _ => feed.source).launch s offset
    feed.reader) fuel
  obtain ⟨σ, hσ, hsame⟩ := session?_wiring hwiring.symm
    (session?_launch_size (n := n.modifySource s fun _ => feed.source) s offset feed.reader)
  have hinput : σ.input = s := congrArg Prod.fst hsame
  refine ⟨_, fuel, σ, start_of_skipFrom hsource hskip fuel, hreturns, hσ, ?_⟩
  rw [← hinput] at hreturns hquiet hwiring hσ ⊢
  refine (hquiet.settle fuel).rests_enroll hreturns hσ fun y ρ hρ hy => ?_
  obtain ⟨ρ₀, hρ₀, hsame'⟩ := session?_wiring hwiring hρ
  rcases session?_launch _ offset feed.reader hρ₀ with hρ₀ | ⟨hy', -⟩
  · obtain ⟨k, hk⟩ := h.notified y ρ₀ hρ₀
    rw [show ρ₀.input = ρ.input from congrArg Prod.fst hsame'] at hk
    have hnotifies : (n.modifySource σ.input fun _ => feed.source).Notifies ρ.input k y :=
      hk.of_wiring_eq (wiring_modifySource _ _)
    have hlaunched : ((n.modifySource σ.input fun _ => feed.source).launch σ.input offset
      feed.reader).Notifies ρ.input k y := hnotifies
    exact ⟨k, hlaunched.of_wiring_eq hwiring⟩
  · exact (hy hy').elim

/-! ### Everything else -/

namespace Rests

theorem of_keeps (h : n.Rests) (hasks : n'.Asks fun _ => False) (hagenda : n'.agenda = [])
    (hkeeps : ∀ y σ, n'.session? y = some σ → ∃ σ₀, n.session? y = some σ₀ ∧
      σ.input = σ₀.input ∧ Keeps σ₀.input y n n') : n'.Rests := by
  refine ⟨h.quiet.of_keeps h.agenda_eq hasks hagenda hkeeps, hagenda, fun y σ hσ => ?_⟩
  obtain ⟨σ₀, hσ₀, hinput, hkeep⟩ := hkeeps y σ hσ
  obtain ⟨k, hk⟩ := h.notified y σ₀ hσ₀
  rw [hinput]
  exact ⟨k, hkeep.notifies hk⟩

theorem addSource (h : n.Rests) (source : Source Char) : (n.addSource source).2.Rests :=
  h.of_keeps (h.quiet.asks.addSource source) h.agenda_eq fun _ σ hσ =>
    ⟨σ, hσ, rfl, .addSource source⟩

theorem subscribe (h : n.Rests) (t : Nat) {r : Reaction Char} (hr : ∀ q, q ∉ r.requests) :
    (n.subscribe t (.listener r)).Rests := by
  have hspares : ∀ {P : Request → Prop} (r' : Reaction Char),
      Subscriber.listener r = .listener r' → ∀ q ∈ r'.requests, P q := by
    intro P r' hr' q hq
    rw [← Subscriber.listener.inj hr'] at hq
    exact (hr q hq).elim
  exact h.of_keeps (h.quiet.asks.subscribe t hspares) h.agenda_eq fun _ σ hσ =>
    ⟨σ, hσ, rfl, .subscribe t hspares⟩

theorem listen (h : n.Rests) (x : Nat) {r : Reaction τ} (hr : ∀ q, q ∉ r.requests) :
    (n.listen x r).Rests := by
  have hspares : ∀ {P : Request → Prop}, ∀ q ∈ r.requests, P q := fun q hq => (hr q hq).elim
  refine h.of_keeps (h.quiet.asks.listen x hspares) h.agenda_eq fun y σ hσ => ?_
  obtain ⟨σ₀, hσ₀, hinput, -⟩ := session?_listen hσ
  exact ⟨σ₀, hσ₀, hinput, .listen x hspares⟩

theorem drop (h : n.Rests) (x : Nat) : (n.drop x).Rests := by
  refine h.of_keeps (h.quiet.asks.drop x) h.agenda_eq fun y σ hσ => ?_
  have hne : x ≠ y := by
    intro hy
    rw [session?_drop, if_pos hy] at hσ
    cases hσ
  exact ⟨σ, session?_of_drop hσ, rfl, .drop hne⟩

theorem takeNotices (h : n.Rests) : n.takeNotices.2.Rests :=
  h.of_keeps (h.quiet.asks.of_wiring_eq rfl) h.agenda_eq fun _ σ hσ =>
    ⟨σ, hσ, rfl, .of_wiring_eq (.of_eq rfl rfl rfl) rfl⟩

end Rests

theorem rests_fresh (l : Lexer τ π)
    (hactions : ∀ state, ∀ rule ∈ l.rules.rules state, ∀ matched payloads r,
      .request r ∉ (rule.action.perform matched payloads).2.effects) : (fresh l).Rests where
  quiet := by
    refine ⟨⟨hactions, fun t i hi => ?_, fun y σ hσ => ?_⟩, fun q hq => ?_, fun y σ hσ => ?_⟩
    · cases hi
    · cases hσ
    · cases hq
    · cases hσ
  agenda_eq := rfl
  notified := fun y σ hσ => by cases hσ

end Quiet

end Network

/-! ### Histories -/

namespace Streamed

variable {l : Lexer τ π} {n : Network τ π} {s skip x : Nat} {total : Source Char}
  {σ : Session τ π}

theorem exists_opened (h : n.Rests) {source : Source Char} {offset : Nat} {feed : Feed Char}
    (hsource : n.source? s = some source)
    (hreaders : ∀ y σ, n.session? y = some σ → σ.input ≠ s)
    (hskip : Network.skipFrom ⟨source, .of source⟩ source.pulled skip = (.ok offset, feed)) :
    ∃ n' σ, Streamed n.lexer s skip n.sessions.size source n' σ ∧ n'.Rests := by
  obtain ⟨m, fuel, σ, hstart, hreturns, hσ, hrests⟩ := h.start hsource hreaders hskip
  have hapart : n.Apart s n.sessions.size :=
    ⟨h.quiet.asks.mono fun _ hq => hq.elim, fun y ρ hρ _ => hreaders y ρ hρ⟩
  refine ⟨_, σ, .opened rfl h.agenda_eq hsource hapart hstart hreturns hσ, ?_⟩
  rw [Network.openSession, hstart]
  exact hrests

theorem exists_push (h : Streamed l s skip x total n σ) (hrests : n.Rests) (text : List Char) :
    ∃ n' σ', Streamed l s skip x (total.push text) n' σ' ∧ n'.Rests := by
  obtain ⟨fuel, hrests'⟩ := hrests.ask (.push s text)
  exact ⟨_, _, h.push text fuel hrests'.agenda_eq, hrests'⟩

theorem exists_close (h : Streamed l s skip x total n σ) (hrests : n.Rests) :
    ∃ n' σ', Streamed l s skip x total.close n' σ' ∧ n'.Rests := by
  obtain ⟨fuel, hrests'⟩ := hrests.ask (.close s)
  exact ⟨_, _, h.close fuel hrests'.agenda_eq, hrests'⟩

theorem exists_pieces (h : Streamed l s skip x total n σ) (hrests : n.Rests)
    (hopen : total.closed = false) (pieces : List (List Char)) :
    ∃ n' σ', Streamed l s skip x { total with queue := total.queue ++ pieces.flatten } n' σ' ∧
      n'.Rests := by
  induction pieces generalizing total n σ with
  | nil =>
    rw [List.flatten_nil, List.append_nil]
    exact ⟨n, σ, h, hrests⟩
  | cons piece rest ih =>
    obtain ⟨n', σ', h', hrests'⟩ := h.exists_push hrests piece
    have hpush : total.push piece = { total with queue := total.queue ++ piece } := by
      rw [Source.push, hopen]
      rfl
    rw [hpush] at h'
    have hpieces := ih h' hrests' hopen
    rw [List.flatten_cons, ← List.append_assoc]
    exact hpieces

end Streamed

/-- With a lexer whose actions ask for nothing, a text can be delivered in any pieces: the first
is there when the session starts, the others are pushed one after another, and at the end the
source may be closed. Every call returns. -/
theorem exists_streamed (l : Lexer τ π)
    (hactions : ∀ state, ∀ rule ∈ l.rules.rules state, ∀ matched payloads r,
      .request r ∉ (rule.action.perform matched payloads).2.effects)
    (first : List Char) (pieces : List (List Char)) (closing : Bool) :
    ∃ n σ, Streamed l 0 0 0 ⟨first ++ pieces.flatten, 0, closing⟩ n σ ∧ n.Rests := by
  have hfresh := (Network.rests_fresh l hactions).addSource ⟨first, 0, false⟩
  have hsource : ((Network.fresh l).addSource ⟨first, 0, false⟩).2.source? 0 =
      some ⟨first, 0, false⟩ := rfl
  have hskip : Network.skipFrom ⟨⟨first, 0, false⟩, .of ⟨first, 0, false⟩⟩ 0 0 =
      (.ok 0, ⟨⟨first, 0, false⟩, .of ⟨first, 0, false⟩⟩) := rfl
  obtain ⟨n, σ, hopened, hrests⟩ := Streamed.exists_opened hfresh hsource
    (fun y σ hσ => by cases hσ) hskip
  obtain ⟨n', σ', hpieces, hrests'⟩ := hopened.exists_pieces hrests rfl pieces
  cases closing with
  | false => exact ⟨n', σ', hpieces, hrests'⟩
  | true => exact hpieces.exists_close hrests'

end DerivativeLexer
