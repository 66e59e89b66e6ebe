import DerivativeLexer.Proofs.Stream.Serving

/-! # What can happen at a hub

Cursors are taken from any source at any time, and made from one another. Whoever holds one may
read at it whenever he likes, a listener also while it is being told something. A listener belongs
to somebody who may do anything then, so it is not held to what it has registered: it may push and
close as it likes. From outside nothing is pushed or closed before the call before has returned. -/

namespace DerivativeLexer

variable {α : Type} {s r : Nat}

/-! ### Readings draw -/

/-- The source after the first `n` items of its queue were pulled. -/
def Source.draw (source : Source α) (n : Nat) : Source α :=
  { source with queue := source.queue.drop n, pulled := source.pulled + n }

def Reader.keep (reader : Reader α) (items : List α) : Reader α :=
  { reader with drawn := reader.drawn ++ items }

theorem Reader.keep_keep (reader : Reader α) (items others : List α) :
    (reader.keep items).keep others = reader.keep (items ++ others) :=
  congrArg (Reader.mk reader.start) (Array.ext' (by simp [keep]))

namespace Feed

variable {f g : Feed α} {offset : Nat} {a : α}

/-- The feed after its reader has drawn the first `n` items of the queue. -/
def draw (f : Feed α) (n : Nat) : Feed α :=
  ⟨f.source.draw n, f.reader.keep (f.source.queue.take n)⟩

theorem draw_zero (f : Feed α) : f.draw 0 = f := by
  simp [draw, Source.draw, Reader.keep]

theorem draw_draw (f : Feed α) (m n : Nat) : (f.draw m).draw n = f.draw (m + n) := by
  rw [draw, draw, draw, Reader.keep_keep]
  simp [Source.draw, List.take_add, Nat.add_assoc]

theorem queue_draw_length (f : Feed α) (n : Nat) :
    (f.draw n).source.queue.length = f.source.queue.length - n :=
  List.length_drop

theorem draws_of_head? (h : f.head? offset = some (a, g)) :
    ∃ n ≤ f.source.queue.length, g = f.draw n := by
  unfold head? at h
  split at h
  · obtain ⟨-, rfl⟩ := Prod.mk.inj (Option.some.inj h)
    exact ⟨0, Nat.zero_le _, f.draw_zero.symm⟩
  · unfold Source.pull? at h
    cases hqueue : f.source.queue with
    | nil =>
      rw [hqueue] at h
      cases h
    | cons b rest =>
      rw [hqueue] at h
      obtain ⟨-, rfl⟩ := Prod.mk.inj (Option.some.inj h)
      refine ⟨1, Nat.le_add_left _ _, ?_⟩
      simp [draw, Source.draw, Reader.keep, Reader.remember, hqueue]

theorem draws_take (f : Feed α) (offset k : Nat) :
    ∃ n ≤ f.source.queue.length, (f.take offset k).2 = f.draw n := by
  induction k generalizing f offset with
  | zero => exact ⟨0, Nat.zero_le _, f.draw_zero.symm⟩
  | succ k ih =>
    unfold take
    split
    · exact ⟨0, Nat.zero_le _, f.draw_zero.symm⟩
    next a next hhead =>
      obtain ⟨m, hm, rfl⟩ := draws_of_head? hhead
      obtain ⟨n, hn, hnext⟩ := ih (f.draw m) (offset + 1)
      rw [queue_draw_length] at hn
      exact ⟨m + n, by omega, by rw [hnext, draw_draw]⟩

end Feed

namespace Hub

variable {h h' : Hub α} {c : Cursor}

/-- The reader of the cursor has drawn items, or nothing has changed. -/
def Draws (h : Hub α) (c : Cursor) (h' : Hub α) : Prop :=
  h' = h ∨ ∃ f n, h.feed? c = some f ∧ n ≤ f.source.queue.length ∧ h' = h.setFeed c (f.draw n)

theorem draws_head? (h : Hub α) (c : Cursor) : h.Draws c (h.head? c).2 := by
  unfold Hub.head?
  cases hfeed : h.feed? c with
  | none => exact .inl rfl
  | some f =>
    dsimp only
    split
    · exact .inl rfl
    next hhead =>
      obtain ⟨n, hn, rfl⟩ := Feed.draws_of_head? hhead
      exact .inr ⟨f, n, hfeed, hn, rfl⟩

theorem draws_take (h : Hub α) (c : Cursor) (k : Nat) : h.Draws c (h.take c k).2 := by
  unfold Hub.take
  cases hfeed : h.feed? c with
  | none => exact .inl rfl
  | some f =>
    obtain ⟨n, hn, htake⟩ := f.draws_take c.offset k
    exact .inr ⟨f, n, hfeed, hn, congrArg (h.setFeed c) htake⟩

theorem Reading.draws (hread : h.Reading c h') : h.Draws c h' := by
  cases hread with
  | head? => exact h.draws_head? c
  | head =>
    rw [head_eq]
    exact h.draws_head? c
  | tail =>
    rw [tail_eq]
    exact h.draws_head? c
  | take k => exact h.draws_take c k
  | available =>
    obtain ⟨k, hk⟩ := h.available_eq_take c
    rw [hk]
    exact h.draws_take c k

/-! ### A source and its readers -/

/-- The reader `r`, if it is one of the source `s`. -/
def readerOf (h : Hub α) (s r : Nat) : Option (Reader α) :=
  h.readers[r]?.bind fun a => if a.source = s then some a.reader else none

theorem readerOf_eq_some {reader : Reader α} :
    h.readerOf s r = some reader ↔ h.readers[r]? = some ⟨s, reader⟩ := by
  unfold readerOf
  rw [Option.bind_eq_some_iff]
  constructor
  · rintro ⟨⟨t, kept⟩, ha, hsource⟩
    by_cases ht : t = s
    · subst ht
      rw [if_pos rfl, Option.some_inj] at hsource
      obtain rfl : kept = reader := hsource
      exact ha
    · rw [if_neg ht] at hsource
      cases hsource
  · intro ha
    exact ⟨_, ha, if_pos rfl⟩

theorem readerOf_eq_none_of_le (hr : h.readers.size ≤ r) : h.readerOf s r = none := by
  rw [readerOf, Array.getElem?_eq_none hr, Option.bind_none]

end Hub

/-- What a request does to the source `s`. -/
def Source.grant (source : Source α) (s : Nat) : SourceRequest α → Source α
  | .push t items => if t = s then source.push items else source
  | .close t => if t = s then source.close else source

namespace Source

variable {source : Source α} {ledger : Ledger α} {taken : List α}

theorem pulled_grant (source : Source α) (s : Nat) (q : SourceRequest α) :
    (source.grant s q).pulled = source.pulled := by
  cases q with
  | push t items =>
    rw [grant]
    split
    · exact pulled_push source items
    · rfl
  | close t =>
    rw [grant]
    split <;> rfl

/-- What was accepted is what was taken, and then what is queued. -/
structure Records (source : Source α) (ledger : Ledger α) (taken : List α) : Prop where
  closed : source.closed = ledger.closed
  accepted : ledger.accepted = taken ++ source.queue

theorem Records.grant (h : source.Records ledger taken) (s : Nat) (q : SourceRequest α) :
    (source.grant s q).Records (ledger.enter s q) taken := by
  have hclosed := h.closed
  cases q with
  | push t items =>
    rw [Source.grant, Ledger.enter]
    by_cases ht : t = s
    · cases hopen : source.closed with
      | true =>
        rw [if_pos ht, if_neg (by simp [← hclosed, hopen]), push_closed hopen]
        exact h
      | false =>
        rw [if_pos ht, if_pos ⟨ht, hclosed.symm.trans hopen⟩]
        refine ⟨(closed_push source items).trans hclosed, ?_⟩
        rw [queue_push_open hopen, h.accepted, List.append_assoc]
    · rw [if_neg ht, if_neg fun h => ht h.1]
      exact h
  | close t =>
    rw [Source.grant, Ledger.enter]
    split
    · exact ⟨rfl, h.accepted⟩
    · exact h

theorem Records.draw (h : source.Records ledger taken) (n : Nat) :
    (source.draw n).Records ledger (taken ++ source.queue.take n) where
  closed := h.closed
  accepted := by rw [h.accepted, Source.draw, List.append_assoc, List.take_append_drop]

end Source

namespace Hub

variable {h h' : Hub α} {c : Cursor} {source : Source α}

/-- What becomes of the source `s` and its readers when a request is carried out, if there is one,
or something else is done. -/
inductive Affects (h : Hub α) (s : Nat) (source : Source α) :
    Option (SourceRequest α) → Hub α → Prop
  | heeds (q : SourceRequest α) {h' : Hub α} (hsource : h'.source? s = some (source.grant s q))
      (hreaders : ∀ r, h'.readerOf s r = h.readerOf s r) : Affects h s source (some q) h'
  | spares {h' : Hub α} (hsource : h'.source? s = some source)
      (hreaders : ∀ r, h'.readerOf s r = h.readerOf s r) : Affects h s source none h'
  | draws {r n : Nat} {reader : Reader α} {h' : Hub α} (hn : n ≤ source.queue.length)
      (hreader : h.readerOf s r = some reader) (hsource : h'.source? s = some (source.draw n))
      (hdrawn : h'.readerOf s r = some (reader.keep (source.queue.take n)))
      (hreaders : ∀ i, i ≠ r → h'.readerOf s i = h.readerOf s i) : Affects h s source none h'
  | attaches {r : Nat} {h' : Hub α} (hreader : h.readerOf s r = none)
      (hsource : h'.source? s = some source) (hnew : h'.readerOf s r = some (.of source))
      (hreaders : ∀ i, i ≠ r → h'.readerOf s i = h.readerOf s i) : Affects h s source none h'

theorem readerOf_congr (hreaders : h'.readers = h.readers) (s r : Nat) :
    h'.readerOf s r = h.readerOf s r := by
  rw [readerOf, readerOf, hreaders]

theorem Affects.congr {q : Option (SourceRequest α)} {k k' : Hub α}
    (haffects : h.Affects s source q h') (hreaders : k.readers = h.readers)
    (houtlets' : k'.outlets = h'.outlets) (hreaders' : k'.readers = h'.readers) :
    k.Affects s source q k' := by
  have hsource : k'.source? s = h'.source? s := by rw [source?, source?, houtlets']
  have hbefore (r : Nat) : h.readerOf s r = k.readerOf s r := readerOf_congr hreaders.symm s r
  have hafter := readerOf_congr hreaders' s
  cases haffects with
  | heeds q hs hr =>
    exact .heeds q (hsource.trans hs) fun r => (hafter r).trans ((hr r).trans (hbefore r))
  | spares hs hr =>
    exact .spares (hsource.trans hs) fun r => (hafter r).trans ((hr r).trans (hbefore r))
  | draws hn hold hs hnew hr =>
    exact .draws hn ((hbefore _).symm.trans hold) (hsource.trans hs) ((hafter _).trans hnew)
      fun i hi => (hafter i).trans ((hr i hi).trans (hbefore i))
  | attaches hold hs hnew hr =>
    exact .attaches ((hbefore _).symm.trans hold) (hsource.trans hs) ((hafter _).trans hnew)
      fun i hi => (hafter i).trans ((hr i hi).trans (hbefore i))

theorem affects_self (hsource : h.source? s = some source) : h.Affects s source none h :=
  .spares hsource fun _ => rfl

theorem affects_setFeed {f : Feed α} {n : Nat} (hsource : h.source? s = some source)
    (hfeed : h.feed? c = some f) (hn : n ≤ f.source.queue.length) :
    h.Affects s source none (h.setFeed c (f.draw n)) := by
  obtain ⟨⟨t, reader⟩, hreader, hbind⟩ := Option.bind_eq_some_iff.1 hfeed
  obtain ⟨source', hsource', hpure⟩ := Option.bind_eq_some_iff.1 hbind
  obtain rfl := Option.some.inj hpure
  obtain ⟨o, ho, rfl⟩ := Option.map_eq_some_iff.1 hsource
  obtain ⟨o', ho', rfl⟩ := Option.map_eq_some_iff.1 hsource'
  unfold setFeed
  simp only [hreader]
  by_cases ht : t = s
  · subst ht
    obtain rfl := Option.some.inj (ho.symm.trans ho')
    refine .draws hn (readerOf_eq_some.2 hreader) ?_ ?_ fun i hi => ?_
    · simp [source?, Array.getElem?_modify, ho, Feed.draw]
    · simp [readerOf_eq_some, Array.getElem?_modify, hreader, Feed.draw]
    · simp [readerOf, Array.getElem?_modify, hi.symm]
  · refine .spares ?_ fun r => ?_
    · simp [source?, Array.getElem?_modify, ht, ho]
    · by_cases hr : c.reader = r
      · subst hr
        simp [readerOf, Array.getElem?_modify, hreader, ht]
      · simp [readerOf, Array.getElem?_modify, hr]

theorem Draws.affects (hdraws : h.Draws c h') (hsource : h.source? s = some source) :
    h.Affects s source none h' := by
  rcases hdraws with rfl | ⟨f, n, hfeed, hn, rfl⟩
  · exact affects_self hsource
  · exact affects_setFeed hsource hfeed hn

theorem readers_grant (h : Hub α) (q : SourceRequest α) : (h.grant q).readers = h.readers := by
  cases q with
  | push t items =>
    rw [Hub.grant]
    split
    · rfl
    · split <;> rfl
  | close t => rfl

theorem affects_grant (hsource : h.source? s = some source) (q : SourceRequest α) :
    h.Affects s source (some q) (h.grant q) := by
  obtain ⟨o, ho, rfl⟩ := Option.map_eq_some_iff.1 hsource
  refine .heeds q ?_ (readerOf_congr (h.readers_grant q) s)
  cases q with
  | push t items =>
    rw [Hub.grant, Source.grant]
    by_cases ht : t = s
    · subst ht
      simp only [hsource, if_true]
      split
      next hclosed => rw [Source.push_closed hclosed, hsource]
      next => simp [source?, Array.getElem?_modify, ho]
    · rw [if_neg ht]
      split
      · exact hsource
      · split
        · exact hsource
        · simp [source?, Array.getElem?_modify, ho, ht]
  | close t =>
    rw [Hub.grant, Source.grant]
    by_cases ht : t = s
    · subst ht
      simp [source?, Array.getElem?_modify, ho]
    · simp [source?, Array.getElem?_modify, ho, ht]

theorem affects_attach (hsource : h.source? s = some source) {t : Nat}
    (hattach : h.attach t = some (c, h')) : h.Affects s source none h' := by
  obtain ⟨source', hsource', hpure⟩ := Option.bind_eq_some_iff.1 hattach
  obtain ⟨-, rfl⟩ := Prod.mk.inj (Option.some.inj hpure)
  have hreaders (i : Nat) (hi : i ≠ h.readers.size) :
      { h with readers := h.readers.push ⟨t, .of source'⟩ }.readerOf s i = h.readerOf s i := by
    rw [readerOf, Array.getElem?_push, if_neg hi, readerOf]
  have hnone : h.readerOf s h.readers.size = none := readerOf_eq_none_of_le (Nat.le_refl _)
  by_cases ht : t = s
  · subst ht
    obtain rfl := Option.some.inj (hsource.symm.trans hsource')
    exact .attaches hnone hsource (readerOf_eq_some.2 Array.getElem?_push_size) hreaders
  · refine .spares hsource fun i => ?_
    by_cases hi : i = h.readers.size
    · subst hi
      rw [hnone, readerOf, Array.getElem?_push_size, Option.bind_some, if_neg ht]
    · exact hreaders i hi

/-! ### What reading spares -/

/-- The listeners of a source, in the order in which they are told. -/
def listening (h : Hub α) (s : Nat) : List Nat := (h.outlets[s]?.map (·.listeners)).getD []

theorem tellings_eq (h : Hub α) (s : Nat) (items : List α) :
    h.tellings s items = (h.listening s).map fun l => .tell l items := by
  unfold tellings listening
  cases h.outlets[s]? <;> rfl

theorem Draws.readerOf_before {reader : Reader α} (hdraws : h.Draws c h')
    (hreader : h'.readerOf s r = some reader) : ∃ before, h.readerOf s r = some before := by
  rcases hdraws with rfl | ⟨f, n, -, -, rfl⟩
  · exact ⟨reader, hreader⟩
  · obtain ⟨⟨t, before⟩, hbefore, rfl⟩ := source_of_setFeed (readerOf_eq_some.1 hreader)
    exact ⟨before, readerOf_eq_some.2 hbefore⟩

theorem Draws.agenda_eq (hdraws : h.Draws c h') : h'.agenda = h.agenda := by
  rcases hdraws with rfl | ⟨f, n, -, -, rfl⟩
  · rfl
  · unfold setFeed
    split <;> rfl

theorem Draws.listeners_eq (hdraws : h.Draws c h') : h'.listeners = h.listeners := by
  rcases hdraws with rfl | ⟨f, n, -, -, rfl⟩
  · rfl
  · exact listeners_setFeed

theorem Draws.listening_eq (hdraws : h.Draws c h') (s : Nat) :
    h'.listening s = h.listening s := by
  rcases hdraws with rfl | ⟨f, n, -, -, rfl⟩
  · rfl
  · unfold setFeed listening
    split
    · rfl
    · rw [Array.getElem?_modify]
      split
      · rw [Option.map_map]
        rfl
      · rfl

/-- The cursor that a listener looks at. -/
def probe? (h : Hub α) (l : Nat) : Option Cursor := h.listeners[l]?.bind (·.probe)

theorem probe?_congr (hlisteners : h'.listeners = h.listeners) (l : Nat) :
    h'.probe? l = h.probe? l := by
  rw [probe?, probe?, hlisteners]

theorem probe_spend (listeners : Array (Listener α)) (l i : Nat) :
    ((listeners.modify l fun x => { x with budget := x.budget - 1 })[i]?).bind (·.probe) =
      listeners[i]?.bind (·.probe) := by
  rw [Array.getElem?_modify]
  split
  · cases listeners[i]? <;> rfl
  · rfl

/-- A listener that is told something looks at its cursor, if it has one, and asks for something. -/
structure Hears (h : Hub α) (l : Nat) (asked : List (SourceRequest α)) (h' told : Hub α) :
    Prop where
  looks : h' = h ∨ ∃ c, h.probe? l = some c ∧ h' = (h.head? c).2
  outlets_eq : told.outlets = h'.outlets
  readers_eq : told.readers = h'.readers
  agenda_eq : told.agenda = asked.map .request ++ h.agenda
  probe?_eq : ∀ i, told.probe? i = h.probe? i
  size_eq : told.listeners.size = h.listeners.size

theorem Hears.reads {l : Nat} {asked : List (SourceRequest α)} {told : Hub α}
    (hhears : h.Hears l asked h' told) : h' = h ∨ ∃ c, h.probe? l = some c ∧ h.Draws c h' := by
  rcases hhears.looks with rfl | ⟨c, hprobe, rfl⟩
  · exact .inl rfl
  · exact .inr ⟨c, hprobe, h.draws_head? c⟩

theorem Hears.listening_eq {l : Nat} {asked : List (SourceRequest α)} {told : Hub α}
    (hhears : h.Hears l asked h' told) (s : Nat) : told.listening s = h.listening s := by
  have htold : told.listening s = h'.listening s := by
    rw [listening, listening, hhears.outlets_eq]
  rcases hhears.reads with rfl | ⟨c, -, hdraws⟩
  · exact htold
  · exact htold.trans (hdraws.listening_eq s)

theorem hears_tell (h : Hub α) (l : Nat) (items : List α) :
    ∃ asked h', h.Hears l asked h' (h.tell l items) := by
  unfold Hub.tell
  cases hl : h.listeners[l]? with
  | none => exact ⟨[], h, .inl rfl, rfl, rfl, rfl, fun _ => rfl, rfl⟩
  | some listener =>
    cases hprobe : listener.probe with
    | none =>
      simp only [hprobe]
      split
      · exact ⟨[], h, .inl rfl, rfl, rfl, rfl, fun _ => rfl, rfl⟩
      · exact ⟨listener.requests, h, .inl rfl, rfl, rfl, rfl, probe_spend h.listeners l,
          Array.size_modify⟩
    | some c =>
      have hdraws := h.draws_head? c
      have hlooks : ∃ c', h.probe? l = some c' ∧ (h.head? c).2 = (h.head? c').2 :=
        ⟨c, by rw [probe?, hl, Option.bind_some, hprobe], rfl⟩
      have hlisteners := hdraws.listeners_eq
      simp only [hprobe]
      split
      · exact ⟨[], _, .inr hlooks, rfl, rfl, hdraws.agenda_eq, fun i => probe?_congr hlisteners i,
          congrArg Array.size hlisteners⟩
      · refine ⟨listener.requests, _, .inr hlooks, rfl, rfl, ?_, fun i => ?_, ?_⟩
        · rw [hdraws.agenda_eq]
        · rw [hlisteners]
          exact probe_spend h.listeners l i
        · rw [hlisteners, Array.size_modify]

theorem step_request {q : SourceRequest α} {rest : List (HubTask α)}
    (hagenda : h.agenda = .request q :: rest) :
    h.step = { h with agenda := rest }.grant q := by
  rw [Hub.step, hagenda]

theorem step_tell {l : Nat} {items : List α} {rest : List (HubTask α)}
    (hagenda : h.agenda = .tell l items :: rest) :
    h.step = { h with agenda := rest }.tell l items := by
  rw [Hub.step, hagenda]

/-- The tasks that are done when the hub settles. -/
def worked (h : Hub α) : Nat → List (HubTask α)
  | 0 => []
  | fuel + 1 =>
    match h.agenda with
    | [] => []
    | task :: _ => task :: h.step.worked fuel

/-- The tasks that are done when a request is performed. -/
def performed (h : Hub α) (q : SourceRequest α) : List (HubTask α) :=
  let asked := { h with agenda := .request q :: h.agenda }
  asked.worked asked.taskBound

end Hub

/-! ### Events -/

inductive HubEvent (α : Type) where
  /-- The first task on the agenda is done, and a listener that it tells something asks for
  `asked`, before what it has registered. -/
  | task (task : HubTask α) (asked : List (SourceRequest α))
  | call (q : SourceRequest α)
  | read (c : Cursor)
  | tail (c : Cursor)
  | attach (s : Nat)
  | addSource (source : Source α)
  | listen (s : Nat) (l : Listener α)
  | takeNotices

/-- The request that is carried out. -/
def HubEvent.heeded : HubEvent α → Option (SourceRequest α)
  | .task (.request q) _ => some q
  | _ => none

/-- The ledger of the source `s` after something happened. -/
def Ledger.after (l : Ledger α) (s : Nat) (e : HubEvent α) : Ledger α :=
  match e.heeded with
  | some q => l.enter s q
  | none => l

def Ledger.along (l : Ledger α) (s : Nat) (trace : List (HubEvent α)) : Ledger α :=
  trace.foldl (·.after s ·) l

theorem Ledger.along_snoc (ledger : Ledger α) (s : Nat) (trace : List (HubEvent α))
    (e : HubEvent α) : ledger.along s (trace ++ [e]) = (ledger.along s trace).after s e := by
  rw [along, List.foldl_append]
  rfl

/-- A hub and all the cursors that were ever made. -/
structure Venue (α : Type) where
  hub : Hub α
  cursors : List Cursor

namespace Venue

inductive Happens (v : Venue α) : HubEvent α → Venue α → Prop
  | task {task : HubTask α} {rest : List (HubTask α)} {asked : List (SourceRequest α)}
      (hagenda : v.hub.agenda = task :: rest)
      (hasked : asked = [] ∨ ∃ l items, task = .tell l items) :
      Happens v (.task task asked)
        { v with hub := { v.hub.step with
          agenda := asked.map .request ++ v.hub.step.agenda } }
  | call (q : SourceRequest α) (hagenda : v.hub.agenda = []) :
      Happens v (.call q) { v with hub := { v.hub with agenda := [.request q] } }
  | read {c : Cursor} {h : Hub α} (hc : c ∈ v.cursors) (hread : v.hub.Reading c h) :
      Happens v (.read c) { v with hub := h }
  | tail {c next : Cursor} (hc : c ∈ v.cursors) (hnext : (v.hub.tail c).1 = .ok next) :
      Happens v (.tail c) ⟨(v.hub.tail c).2, next :: v.cursors⟩
  | attach {t : Nat} {c : Cursor} {h : Hub α} (hattach : v.hub.attach t = some (c, h)) :
      Happens v (.attach t) ⟨h, c :: v.cursors⟩
  | addSource {source : Source α} (hpulled : source.pulled = 0) :
      Happens v (.addSource source) { v with hub := (v.hub.addSource source).2 }
  | listen (t : Nat) {l : Listener α} (hl : ∀ c ∈ l.probe, c ∈ v.cursors) :
      Happens v (.listen t l) { v with hub := v.hub.listen t l }
  | takeNotices : Happens v .takeNotices { v with hub := v.hub.takeNotices.2 }

/-- What happens one after the other. -/
inductive Runs (v : Venue α) : List (HubEvent α) → Venue α → Prop
  | refl : Runs v [] v
  | snoc {trace : List (HubEvent α)} {w w' : Venue α} {e : HubEvent α} (h : Runs v trace w)
      (hnext : w.Happens e w') : Runs v (trace ++ [e]) w'

/-- The venue comes about from one without sources. -/
def Reachable (v : Venue α) : Prop := ∃ trace, Runs ⟨.empty, []⟩ trace v

variable {u v w : Venue α} {trace trace' : List (HubEvent α)} {e : HubEvent α} {source : Source α}

theorem Runs.one (h : v.Happens e w) : v.Runs [e] w := .snoc .refl h

theorem Runs.trans (h : u.Runs trace v) (h' : v.Runs trace' w) : u.Runs (trace ++ trace') w := by
  induction h' with
  | refl =>
    rw [List.append_nil]
    exact h
  | snoc _ hnext ih =>
    rw [← List.append_assoc]
    exact .snoc ih hnext

theorem Reachable.runs (h : v.Reachable) (hruns : v.Runs trace w) : w.Reachable := by
  obtain ⟨before, hbefore⟩ := h
  exact ⟨_, hbefore.trans hruns⟩

theorem Happens.affects (h : v.Happens e w) (hsource : v.hub.source? s = some source) :
    v.hub.Affects s source e.heeded w.hub := by
  cases h with
  | @task task rest asked hagenda hasked =>
    cases task with
    | request q =>
      rw [Hub.step_request hagenda]
      exact (Hub.affects_grant (h := { v.hub with agenda := rest }) hsource q).congr rfl rfl rfl
    | tell l items =>
      rw [Hub.step_tell hagenda]
      obtain ⟨_, read, hhears⟩ := Hub.hears_tell { v.hub with agenda := rest } l items
      have hread : Hub.Affects { v.hub with agenda := rest } s source none read := by
        rcases hhears.reads with rfl | ⟨c, -, hdraws⟩
        · exact Hub.affects_self hsource
        · exact hdraws.affects hsource
      exact hread.congr rfl hhears.outlets_eq hhears.readers_eq
  | call q hagenda => exact (Hub.affects_self hsource).congr rfl rfl rfl
  | read hc hread => exact hread.draws.affects hsource
  | tail hc hnext => exact Hub.Reading.tail.draws.affects hsource
  | attach hattach => exact Hub.affects_attach hsource hattach
  | addSource hpulled =>
    obtain ⟨o, ho, rfl⟩ := Option.map_eq_some_iff.1 hsource
    obtain ⟨hlt, -⟩ := Array.getElem?_eq_some_iff.1 ho
    refine .spares ?_ fun _ => rfl
    rw [Hub.addSource, Hub.source?, Array.getElem?_push, if_neg (Nat.ne_of_lt hlt), ho,
      Option.map_some]
  | listen t hl =>
    obtain ⟨o, ho, rfl⟩ := Option.map_eq_some_iff.1 hsource
    refine .spares ?_ fun _ => rfl
    rw [Hub.listen, Hub.source?, Array.getElem?_modify]
    split <;> simp [ho]
  | takeNotices => exact (Hub.affects_self hsource).congr rfl rfl rfl

theorem Reachable.induct {P : Venue α → Prop} (h : v.Reachable) (hempty : P ⟨.empty, []⟩)
    (hstep : ∀ {v w : Venue α} {e : HubEvent α}, v.Reachable → P v → v.Happens e w → P w) :
    P v := by
  obtain ⟨trace, hruns⟩ := h
  induction hruns with
  | refl => exact hempty
  | snoc hbefore hnext ih => exact hstep ⟨_, hbefore⟩ ih hnext

/-! ### Operations are runs -/

theorem runs_settleWith (v : Venue α) (fuel : Nat) :
    v.Runs ((v.hub.worked fuel).map (.task · [])) { v with hub := v.hub.settleWith fuel } := by
  induction fuel generalizing v with
  | zero => exact .refl
  | succ fuel ih =>
    unfold Hub.worked Hub.settleWith
    cases hagenda : v.hub.agenda with
    | nil => exact .refl
    | cons task rest =>
      have hstep : v.Happens (.task task []) { v with hub := v.hub.step } :=
        .task hagenda (.inl rfl)
      exact (Runs.one hstep).trans (ih { v with hub := v.hub.step })

/-- To perform a request is a run in which listeners ask only for what they have registered. -/
theorem runs_perform (hagenda : v.hub.agenda = []) (q : SourceRequest α) :
    v.Runs (.call q :: (v.hub.performed q).map (.task · [])) { v with hub := v.hub.perform q } := by
  have hcall : v.Happens (.call q) { v with hub := { v.hub with agenda := [.request q] } } :=
    .call q hagenda
  unfold Hub.performed Hub.perform Hub.settle
  rw [hagenda]
  exact (Runs.one hcall).trans (runs_settleWith _ _)

end Venue

end DerivativeLexer
