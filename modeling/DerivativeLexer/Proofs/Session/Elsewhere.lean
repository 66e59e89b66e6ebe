import DerivativeLexer.Proofs.Session.Progress

/-! # What else happens in a network

Besides growing and closing the source of a session, much else can be done in its network: other
sources are added, fed and closed, listeners and other sessions come and go. None of it matters to
a session that is apart with its source. -/

namespace DerivativeLexer

variable {τ π : Type}

namespace Network

/-- Something is done that has nothing to do with the source `s` and the session `x`, and all that
it causes is done, too. -/
inductive Elsewhere (s x : Nat) (n : Network τ π) : Network τ π → Prop
  | ask {r : Request} (hspares : r.Spares s x) {fuel : Nat}
      (hreturns : (n.ask r fuel).agenda = []) : Elsewhere s x n (n.ask r fuel)
  | addSource (source : Source Char) : Elsewhere s x n (n.addSource source).2
  | subscribe (t : Nat) {r : Reaction Char} (hspares : ∀ q ∈ r.requests, q.Spares s x) :
      Elsewhere s x n (n.subscribe t (.listener r))
  | listen (y : Nat) {r : Reaction τ} (hspares : ∀ q ∈ r.requests, q.Spares s x) :
      Elsewhere s x n (n.listen y r)
  | openSession {t : Nat} (ht : t ≠ s) {skip fuel : Nat}
      (hreturns : (n.openSession t skip fuel).2.agenda = []) :
      Elsewhere s x n (n.openSession t skip fuel).2
  | drop {y : Nat} (hy : y ≠ x) : Elsewhere s x n (n.drop y)
  | takeNotices : Elsewhere s x n n.takeNotices.2

/-- `n'` comes from `n` by changes elsewhere, and everybody is still wired apart from the session
and its source. -/
structure Keeps (s x : Nat) (n n' : Network τ π) : Prop where
  leaves : Leaves s x n n'
  apart : n.Apart s x → n'.Apart s x
  notifies : ∀ {k}, n.Notifies s k x → n'.Notifies s k x
  gone : n.sessions[x]? = some none → n'.sessions[x]? = some none
  lexer_eq : n'.lexer = n.lexer

section Changes

variable {n n' n'' : Network τ π} {s x t y : Nat} {run : SoloRun τ π}

theorem gone_of_wiring_eq (hwiring : n'.wiring = n.wiring) (h : n.sessions[x]? = some none) :
    n'.sessions[x]? = some none := by
  have hentry := congrFun (congrArg Wiring.sessions hwiring) x
  simp only [wiring] at hentry
  rw [h, Option.map_some, Option.map_none, Option.map_eq_some_iff] at hentry
  obtain ⟨o, ho, hnone⟩ := hentry
  rw [ho, Option.map_eq_none_iff.1 hnone]

theorem apart_launch (hapart : n.Apart s x) (h : t ≠ s ∨ n.sessions.size = x) (offset : Nat)
    (reader : Reader Char) : (n.launch t offset reader).Apart s x := by
  refine ⟨hapart.asks.launch t offset reader, fun z σ hσ hz => ?_⟩
  rcases session?_launch t offset reader hσ with hσ | ⟨hsize, -, hinput⟩
  · exact hapart.readers z σ hσ hz
  · rw [hinput]
    exact h.resolve_right fun hx => hz (hsize.trans hx)

namespace Keeps

theorem trans (h : Keeps s x n n') (h' : Keeps s x n' n'') : Keeps s x n n'' where
  leaves := h.leaves.trans h'.leaves
  apart := fun hapart => h'.apart (h.apart hapart)
  notifies := fun hk => h'.notifies (h.notifies hk)
  gone := fun hx => h'.gone (h.gone hx)
  lexer_eq := h'.lexer_eq.trans h.lexer_eq

theorem of_wiring_eq (hleaves : Leaves s x n n') (hwiring : n'.wiring = n.wiring) :
    Keeps s x n n' where
  leaves := hleaves
  apart := fun hapart => hapart.of_wiring_eq hwiring
  notifies := fun hk => hk.of_wiring_eq hwiring
  gone := gone_of_wiring_eq hwiring
  lexer_eq := congrArg Wiring.lexer hwiring

theorem subscribe (t : Nat) {u : Subscriber}
    (hspares : ∀ r, u = .listener r → ∀ q ∈ r.requests, q.Spares s x) :
    Keeps s x n (n.subscribe t u) where
  leaves := .modifySubscribers t fun i => i.subscribers ++ [u]
  apart := fun hapart => ⟨hapart.asks.subscribe t hspares, hapart.readers⟩
  notifies := by
    intro k hk
    unfold Notifies at hk ⊢
    rw [Network.subscribe, Array.getElem?_modify]
    split_ifs
    · obtain ⟨i, hi, hu⟩ := Option.bind_eq_some_iff.1 hk
      obtain ⟨hlt, -⟩ := List.getElem?_eq_some_iff.1 hu
      rw [hi, Option.map_some, Option.bind_some, List.getElem?_append_left hlt]
      exact hu
    · exact hk
  gone := fun hx => hx
  lexer_eq := rfl

theorem listen (y : Nat) {r : Reaction τ} (hspares : ∀ q ∈ r.requests, q.Spares s x) :
    Keeps s x n (n.listen y r) where
  leaves := .modifyListeners y fun σ => σ.listeners ++ [r]
  apart := by
    intro hapart
    refine ⟨hapart.asks.listen y hspares, fun z σ hσ hz => ?_⟩
    obtain ⟨σ₀, hσ₀, hinput, -⟩ := session?_listen hσ
    rw [hinput]
    exact hapart.readers z σ₀ hσ₀ hz
  notifies := fun hk => hk
  gone := by
    intro hx
    rw [Network.listen, modifySession, Array.getElem?_modify, hx]
    split_ifs
    · rfl
    · rfl
  lexer_eq := rfl

theorem addSource (source : Source Char) : Keeps s x n (n.addSource source).2 := by
  have hinput : ∀ {i}, n.inputs[s]? = some i → (n.addSource source).2.inputs[s]? = some i := by
    intro i hi
    obtain ⟨hlt, rfl⟩ := Array.getElem?_eq_some_iff.1 hi
    exact Array.getElem?_push_lt hlt
  refine ⟨⟨fun h => ⟨?_, h.session⟩, [], rfl, fun _ h => nomatch h⟩,
    fun hapart => ⟨hapart.asks.addSource source, hapart.readers⟩, fun hk => ?_, fun hx => hx, rfl⟩
  · obtain ⟨i, hi, hsource⟩ := Option.map_eq_some_iff.1 h.source
    rw [source?, hinput hi, Option.map_some, hsource]
  · obtain ⟨i, hi, hu⟩ := Option.bind_eq_some_iff.1 hk
    rw [Notifies, hinput hi]
    exact hu

theorem drop (hy : y ≠ x) : Keeps s x n (n.drop y) := by
  refine ⟨.of_eq rfl ?_ rfl, fun hapart => ⟨hapart.asks.drop y, fun z σ hσ => ?_⟩, fun hk => hk,
    fun hx => ?_, rfl⟩
  · rw [session?_drop, if_neg hy]
  · exact hapart.readers z σ (session?_of_drop hσ)
  · rw [Network.drop, Array.getElem?_modify, if_neg hy, hx]

theorem launch (hx : x < n.sessions.size) (ht : t ≠ s) (offset : Nat) (reader : Reader Char) :
    Keeps s x n (n.launch t offset reader) := by
  have hne := Nat.ne_of_lt hx
  have hsame : (n.launch t offset reader).sessions[x]? = n.sessions[x]? := by
    rw [Network.launch, schedule, Array.getElem?_push, if_neg hne]
  refine ⟨⟨fun h => ⟨h.source, ?_⟩, [.drain n.sessions.size], rfl, fun task htask => ?_⟩,
    fun hapart => apart_launch hapart (.inl ht) offset reader, fun hk => hk, fun hgone => ?_, rfl⟩
  · rw [session?, hsame]
    exact h.session
  · rw [List.mem_singleton.1 htask]
    exact foreign_of_owner hne.symm rfl
  · rw [hsame]
    exact hgone

end Keeps

/-! ### Sessions at rest -/

/-- A session that nothing is left to do for: it has settled, and it will be told when its source
grows or is closed. -/
structure Idles (n : Network τ π) (s x : Nat) (run : SoloRun τ π) : Prop where
  attends : n.Attends s x false run
  notified : ∃ k, n.Notifies s k x
  agenda_eq : n.agenda = []

theorem Idles.settled (h : n.Idles s x run) : run.Settled n.lexer :=
  (h.attends.settled h.agenda_eq).2.2

/-- When the tasks of a network are done, a session in it has come to some later part of the run
that lay ahead of it. -/
theorem Attends.settle_of_returns {busy : Bool} (h : n.Attends s x busy run) {fuel : Nat}
    (hreturns : (n.settle fuel).agenda = []) :
    ∃ k, (n.settle fuel).Attends s x false ((n.ahead x run).run n.lexer k) ∧
      ((n.ahead x run).run n.lexer k).Settled n.lexer := by
  obtain ⟨k, busy', run', h', hahead⟩ := h.settle fuel
  obtain ⟨rfl, hrun, hsettled⟩ := h'.settled hreturns
  have hlexer : (n.settle fuel).lexer = n.lexer := congrArg Wiring.lexer (wiring_settle fuel)
  rw [hahead] at hrun
  rw [hlexer, ← hrun] at hsettled
  rw [← hrun] at h'
  exact ⟨k, h', hsettled⟩

theorem Attends.of_keeps (h : n.Attends s x false run) (hagenda : n.agenda = [])
    (hkeeps : Keeps s x n n') : n'.Attends s x false run ∧ n'.ahead x run = run := by
  obtain ⟨added, hadded, hforeign⟩ := hkeeps.leaves.agenda
  rw [hagenda, List.append_nil] at hadded
  have hown : Task.own x n'.agenda = [] := by
    rw [hadded]
    exact Task.own_of_foreign hforeign
  have hahead : n'.ahead x run = run := by
    rw [ahead, hown, List.foldl_nil]
  refine ⟨⟨hkeeps.apart h.apart, fun q hq => ?_, hkeeps.leaves.hosts h.hosts, ?_, ?_⟩, hahead⟩
  · rw [hadded] at hq
    exact (hforeign _ hq).spares q rfl
  · rw [hown]
    exact .idle
  · rw [hahead, hkeeps.lexer_eq]
    exact .inr (.inr (h.settled hagenda).2.2)

theorem Idles.of_keeps (h : n.Idles s x run) (hkeeps : Keeps s x n n')
    (hagenda : n'.agenda = []) : n'.Idles s x run := by
  obtain ⟨k, hk⟩ := h.notified
  exact ⟨(h.attends.of_keeps h.agenda_eq hkeeps).1, ⟨k, hkeeps.notifies hk⟩, hagenda⟩

theorem Idles.settle_of_keeps (h : n.Idles s x run) (hkeeps : Keeps s x n n') {fuel : Nat}
    (hreturns : (n'.settle fuel).agenda = []) : (n'.settle fuel).Idles s x run := by
  obtain ⟨hattends, hahead⟩ := h.attends.of_keeps h.agenda_eq hkeeps
  obtain ⟨j, hattends', -⟩ := hattends.settle_of_returns hreturns
  obtain ⟨k, hk⟩ := h.notified
  have hsettled : run.Settled n'.lexer := by
    rw [hkeeps.lexer_eq]
    exact h.settled
  rw [hahead, SoloRun.run_of_settled hsettled] at hattends'
  exact ⟨hattends', ⟨k, (hkeeps.notifies hk).of_wiring_eq (wiring_settle fuel)⟩, hreturns⟩

theorem lt_size_of_hosts {busy : Bool} (h : n.Hosts s x busy run) : x < n.sessions.size := by
  obtain ⟨listeners, hσ⟩ := h.session
  rw [session?, Option.join_eq_some_iff] at hσ
  exact (Array.getElem?_eq_some_iff.1 hσ).1

theorem keeps_ask {r : Request} (hspares : r.Spares s x) :
    Keeps s x n (n.schedule [.request r]) := by
  have hrequests : ∀ q ∈ [r], q.Spares s x := by
    intro q hq
    rw [List.mem_singleton.1 hq]
    exact hspares
  exact .of_wiring_eq (.schedule (foreign_requests hrequests)) rfl

theorem keeps_enroll (t : Nat) (hy : y ≠ x) : Keeps s x n (n.enroll t y).2 := by
  unfold enroll
  cases (n.session? y).bind fun σ => σ.status.error? with
  | none => exact .subscribe t fun r hr => nomatch hr
  | some e => exact .drop hy

theorem agenda_enroll (t y : Nat) : (n.enroll t y).2.agenda = n.agenda := by
  unfold enroll
  cases (n.session? y).bind fun σ => σ.status.error? with
  | none => rfl
  | some e => rfl

theorem start_cases (n : Network τ π) (t skip fuel : Nat) :
    (∃ f offset, n.start t skip fuel = (.error offset, n.modifySource t f)) ∨
      ∃ f offset reader, n.start t skip fuel =
        (.ok n.sessions.size, ((n.modifySource t f).launch t offset reader).settle fuel) := by
  simp only [start]
  split
  · exact .inl ⟨_, _, rfl⟩
  · exact .inr ⟨_, _, _, rfl⟩

/-- What happens elsewhere are changes there, or such changes before and after the tasks that they
cause. -/
theorem Elsewhere.keeps (helse : Elsewhere s x n n') (hx : x < n.sessions.size) :
    (Keeps s x n n' ∧ n'.agenda = n.agenda) ∨
      ∃ m fuel, Keeps s x n m ∧ Keeps s x (m.settle fuel) n' ∧ (m.settle fuel).agenda = [] ∧
        n'.agenda = [] := by
  have hne := Nat.ne_of_lt hx
  cases helse with
  | @ask r hspares fuel hreturns =>
    have hrefl : Keeps s x (n.ask r fuel) (n.ask r fuel) := .of_wiring_eq (.refl _) rfl
    exact .inr ⟨n.schedule [.request r], fuel, keeps_ask hspares, hrefl, hreturns, hreturns⟩
  | addSource source => exact .inl ⟨.addSource source, rfl⟩
  | subscribe t hspares =>
    refine .inl ⟨.subscribe t fun r' hr' => ?_, rfl⟩
    rw [← Subscriber.listener.inj hr']
    exact hspares
  | listen y hspares => exact .inl ⟨.listen y hspares, rfl⟩
  | @openSession t ht skip fuel hreturns =>
    unfold Network.openSession at hreturns ⊢
    rcases n.start_cases t skip fuel with ⟨f, offset, hstart⟩ | ⟨f, offset, reader, hstart⟩
    · rw [hstart]
      exact .inl ⟨.of_wiring_eq (.modifySource ht f) (wiring_modifySource t f), rfl⟩
    · rw [hstart] at hreturns ⊢
      have hlaunch : Keeps s x n ((n.modifySource t f).launch t offset reader) :=
        (Keeps.of_wiring_eq (.modifySource ht f) (wiring_modifySource t f)).trans
          (.launch (n := n.modifySource t f) hx ht offset reader)
      have hsettled := (agenda_enroll t n.sessions.size).symm.trans hreturns
      exact .inr ⟨_, fuel, hlaunch, keeps_enroll t hne.symm, hsettled, hreturns⟩
  | drop hy => exact .inl ⟨.drop hy, rfl⟩
  | takeNotices => exact .inl ⟨.of_wiring_eq (.of_eq rfl rfl rfl) rfl, rfl⟩

theorem Idles.elsewhere (h : n.Idles s x run) (helse : Elsewhere s x n n') :
    n'.Idles s x run := by
  rcases helse.keeps (lt_size_of_hosts h.attends.hosts) with
    ⟨hkeeps, hagenda⟩ | ⟨m, fuel, hbefore, hafter, hreturns, hagenda⟩
  · exact h.of_keeps hkeeps (hagenda.trans h.agenda_eq)
  · exact (h.settle_of_keeps hbefore hreturns).of_keeps hafter hagenda

theorem gone_elsewhere (h : n.sessions[x]? = some none) (helse : Elsewhere s x n n') :
    n'.sessions[x]? = some none := by
  rcases helse.keeps (Array.getElem?_eq_some_iff.1 h).1 with
    ⟨hkeeps, -⟩ | ⟨m, fuel, hbefore, hafter, -, -⟩
  · exact hkeeps.gone h
  · exact hafter.gone (gone_of_wiring_eq (wiring_settle fuel) (hbefore.gone h))

theorem settled_elsewhere (hagenda : n.agenda = []) (hx : x < n.sessions.size)
    (helse : Elsewhere s x n n') : n'.agenda = [] ∧ n'.lexer = n.lexer := by
  rcases helse.keeps hx with ⟨hkeeps, hagenda'⟩ | ⟨m, fuel, hbefore, hafter, -, hagenda'⟩
  · exact ⟨hagenda'.trans hagenda, hkeeps.lexer_eq⟩
  · have hlexer : (m.settle fuel).lexer = m.lexer := congrArg Wiring.lexer (wiring_settle fuel)
    exact ⟨hagenda', hafter.lexer_eq.trans (hlexer.trans hbefore.lexer_eq)⟩

end Changes

end Network

end DerivativeLexer
