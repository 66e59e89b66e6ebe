import DerivativeLexer.Proofs.Stream.Text
import DerivativeLexer.Stream.Hub

/-! # A source with one reader

A reader that was attached to a source before anything was pulled, and to which no other was added,
draws all that the source accepts. What it has drawn and what is queued together are what was
accepted: reading moves items from the queue into the memory of the reader, a push adds to the
queue, and a close adds nothing. The requests of listeners and what they look at are no exception,
and neither are the other sources of a hub. -/

namespace DerivativeLexer

variable {α : Type} {s r : Nat}

/-! ### What a source accepts -/

/-- What a source has accepted, and whether it was closed. -/
structure Ledger (α : Type) where
  accepted : List α
  closed : Bool

namespace Ledger

/-- The ledger of a source from which nothing was pulled. -/
def of (source : Source α) : Ledger α := ⟨source.queue, source.closed⟩

/-- Enters a request if it is made to the source `s`. A push after a close is not accepted. -/
def enter (l : Ledger α) (s : Nat) : SourceRequest α → Ledger α
  | .push t items =>
    if t = s ∧ l.closed = false then { l with accepted := l.accepted ++ items } else l
  | .close t => if t = s then { l with closed := true } else l

/-- The ledger after the next task of an agenda was done. -/
def next (l : Ledger α) (s : Nat) : List (HubTask α) → Ledger α
  | .request q :: _ => l.enter s q
  | .tell _ _ :: _ => l
  | [] => l

/-- `m` is `l` after requests. -/
structure LeadsTo (l m : Ledger α) : Prop where
  accepted : l.accepted <+: m.accepted
  closed : l.closed = true → m = l

theorem LeadsTo.refl (l : Ledger α) : l.LeadsTo l := ⟨List.prefix_rfl, fun _ => rfl⟩

theorem LeadsTo.trans {l m n : Ledger α} (hlm : l.LeadsTo m) (hmn : m.LeadsTo n) :
    l.LeadsTo n where
  accepted := hlm.accepted.trans hmn.accepted
  closed hclosed := by
    obtain rfl := hlm.closed hclosed
    exact hmn.closed hclosed

theorem leadsTo_enter (l : Ledger α) (s : Nat) (q : SourceRequest α) :
    l.LeadsTo (l.enter s q) := by
  cases q with
  | push t items =>
    rw [enter]
    split
    case isTrue h => exact ⟨List.prefix_append _ _, fun hclosed => nomatch h.2.symm.trans hclosed⟩
    case isFalse => exact .refl l
  | close t =>
    rw [enter]
    split
    case isTrue =>
      refine ⟨List.prefix_rfl, fun hclosed => ?_⟩
      rw [← hclosed]
    case isFalse => exact .refl l

theorem leadsTo_next (l : Ledger α) (s : Nat) (agenda : List (HubTask α)) :
    l.LeadsTo (l.next s agenda) := by
  cases agenda with
  | nil => exact .refl l
  | cons task rest =>
    cases task with
    | request q => exact l.leadsTo_enter s q
    | tell listener items => exact .refl l

end Ledger

/-! ### What a feed has taken in -/

namespace Feed

variable {f g : Feed α}

/-- What the source of a feed has accepted, if its reader was there from the beginning. -/
def ledger (f : Feed α) : Ledger α := ⟨f.text, f.source.closed⟩

/-- The feed after a request, which is one to its source if it is made to `s`. -/
def grant (f : Feed α) (s : Nat) : SourceRequest α → Feed α
  | .push t items => if t = s then { f with source := f.source.push items } else f
  | .close t => if t = s then { f with source := f.source.close } else f

theorem ReadsTo.ledger_eq (hreads : f.ReadsTo g) : g.ledger = f.ledger := by
  rw [ledger, hreads.text_eq, hreads.closed_eq, ledger]

theorem ledger_grant (f : Feed α) (s : Nat) (q : SourceRequest α) :
    (f.grant s q).ledger = f.ledger.enter s q := by
  cases q with
  | push t items =>
    by_cases ht : t = s
    · cases hclosed : f.source.closed with
      | true => simp [grant, Ledger.enter, ledger, ht, hclosed, text]
      | false => simp [grant, Ledger.enter, ledger, ht, hclosed, text]
    · simp [grant, Ledger.enter, ht]
  | close t =>
    by_cases ht : t = s
    · simp [grant, Ledger.enter, ledger, ht, text, Source.close]
    · simp [grant, Ledger.enter, ht]

@[simp] theorem reader_grant (f : Feed α) (s : Nat) (q : SourceRequest α) :
    (f.grant s q).reader = f.reader := by
  cases q <;> (rw [grant]; split <;> rfl)

end Feed

/-! ### What reading changes in a hub -/

/-- What is left of a hub when something was read at a cursor. -/
inductive Hub.Reading (h : Hub α) (c : Cursor) : Hub α → Prop
  | head? : h.Reading c (h.head? c).2
  | head : h.Reading c (h.head c).2
  | tail : h.Reading c (h.tail c).2
  | take (n : Nat) : h.Reading c (h.take c n).2
  | available : h.Reading c (h.available c).2

namespace Hub

variable {h : Hub α} {c next : Cursor}

theorem head_eq (h : Hub α) (c : Cursor) :
    h.head c = (match (h.head? c).1 with
      | some a => .ok a
      | none => .error (.head c.offset), (h.head? c).2) := by
  unfold Hub.head
  cases h.head? c with
  | mk read left => cases read <;> rfl

theorem tail_eq (h : Hub α) (c : Cursor) :
    h.tail c = (match (h.head? c).1 with
      | some _ => .ok { c with offset := c.offset + 1 }
      | none => .error (.tail c.offset), (h.head? c).2) := by
  unfold Hub.tail
  cases h.head? c with
  | mk read left => cases read <;> rfl

theorem head_fails_iff : (∃ p, (h.head c).1 = .error p) ↔ (h.head? c).1 = none := by
  rw [head_eq]
  cases (h.head? c).1 <;> simp

theorem tail_fails_iff : (∃ p, (h.tail c).1 = .error p) ↔ (h.head? c).1 = none := by
  rw [tail_eq]
  cases (h.head? c).1 <;> simp

theorem head?_of_tail (hnext : (h.tail c).1 = .ok next) :
    ∃ a, (h.head? c).1 = some a ∧ next = { c with offset := c.offset + 1 } := by
  rw [tail_eq] at hnext
  cases hread : (h.head? c).1 with
  | none =>
    rw [hread] at hnext
    cases hnext
  | some a =>
    rw [hread] at hnext
    exact ⟨a, rfl, (Except.ok.inj hnext).symm⟩

theorem available_eq_take (h : Hub α) (c : Cursor) : ∃ n, h.available c = h.take c n := by
  unfold Hub.available Hub.take
  split
  · exact ⟨0, rfl⟩
  · exact ⟨_, rfl⟩

theorem source_of_setFeed {f : Feed α} {i : Nat} {a : Attachment α}
    (ha : (h.setFeed c f).readers[i]? = some a) :
    ∃ b, h.readers[i]? = some b ∧ b.source = a.source := by
  unfold Hub.setFeed at ha
  cases hreader : h.readers[c.reader]? with
  | none =>
    rw [hreader] at ha
    exact ⟨a, ha, rfl⟩
  | some attachment =>
    rw [hreader, Array.getElem?_modify] at ha
    split at ha
    case isTrue =>
      obtain ⟨b, hb, rfl⟩ := Option.map_eq_some_iff.1 ha
      exact ⟨b, hb, rfl⟩
    case isFalse => exact ⟨a, ha, rfl⟩

theorem listeners_setFeed {f : Feed α} : (h.setFeed c f).listeners = h.listeners := by
  unfold Hub.setFeed
  split <;> rfl

end Hub

/-! ### The feed of the only reader -/

/-- The reader `r` is the only one that was attached to the source `s`, before anything was pulled.
What it has drawn and what the source holds is `f`, and no listener looks at a place of it that it
has not reached. -/
structure Hub.Serves (h : Hub α) (s r : Nat) (f : Feed α) : Prop where
  reader : h.readers[r]? = some ⟨s, f.reader⟩
  source : h.source? s = some f.source
  start : f.reader.start = 0
  alone : ∀ (i : Nat) (a : Attachment α), h.readers[i]? = some a → a.source = s → i = r
  probed : ∀ (i : Nat) (l : Listener α), h.listeners[i]? = some l → ∀ c ∈ l.probe, c.reader = r →
    c.offset ≤ f.reader.reach

namespace Hub.Serves

variable {h h' : Hub α} {f g : Feed α} {c : Cursor}

theorem feed? (hserves : h.Serves s r f) (hc : c.reader = r) : h.feed? c = some f := by
  subst hc
  simp [Hub.feed?, hserves.reader, hserves.source]

theorem reached (hserves : h.Serves s r f) {k : Nat} (hk : k ≤ f.reader.reach) :
    f.Reached k :=
  ⟨by rw [hserves.start]; exact Nat.zero_le k, hk⟩

theorem textFrom (hserves : h.Serves s r f) (k : Nat) : f.textFrom k = f.text.drop k := by
  rw [Feed.textFrom, hserves.start, Nat.sub_zero]

theorem setFeed (hserves : h.Serves s r f) (hc : c.reader = r) (hreads : f.ReadsTo g) :
    (h.setFeed c g).Serves s r g where
  reader := by
    subst hc
    simp [Hub.setFeed, Array.getElem?_modify, hserves.reader]
  source := by
    obtain ⟨o, ho, -⟩ := Option.map_eq_some_iff.1 hserves.source
    subst hc
    simp [Hub.setFeed, Hub.source?, Array.getElem?_modify, hserves.reader, ho]
  start := hreads.start_eq.trans hserves.start
  alone i a ha hs := by
    obtain ⟨b, hb, hsource⟩ := source_of_setFeed ha
    exact hserves.alone i b hb (hsource.trans hs)
  probed i l hl c' hc' hr := by
    rw [listeners_setFeed] at hl
    exact Nat.le_trans (hserves.probed i l hl c' hc' hr) hreads.reach_le

theorem setFeed_of_ne (hserves : h.Serves s r f) (hc : c.reader ≠ r) (g : Feed α) :
    (h.setFeed c g).Serves s r f where
  reader := by
    unfold Hub.setFeed
    split
    · exact hserves.reader
    · rw [Array.getElem?_modify, if_neg hc, hserves.reader]
  source := by
    unfold Hub.setFeed
    split
    · exact hserves.source
    case h_2 attachment hreader =>
      -- only `r` is attached to `s`, so the source that changes is another one
      have hsource : attachment.source ≠ s := fun hs => hc (hserves.alone _ _ hreader hs)
      rw [Hub.source?, Array.getElem?_modify, if_neg hsource]
      exact hserves.source
  start := hserves.start
  alone i a ha hs := by
    obtain ⟨b, hb, hsource⟩ := source_of_setFeed ha
    exact hserves.alone i b hb (hsource.trans hs)
  probed i l hl := by
    rw [listeners_setFeed] at hl
    exact hserves.probed i l hl

/-- A head that is drawn for a cursor is drawn from the feed if the cursor is one of the chain. -/
theorem head? (hserves : h.Serves s r f) (hc : c.reader = r → c.offset ≤ f.reader.reach) :
    ∃ g, (h.head? c).2.Serves s r g ∧ f.ReadsTo g ∧
      ∀ a, (h.head? c).1 = some a → c.reader = r → c.offset + 1 ≤ g.reader.reach := by
  by_cases hr : c.reader = r
  · rw [Hub.head?, hserves.feed? hr]
    have hreached := hserves.reached (hc hr)
    cases htext : f.textFrom c.offset with
    | nil =>
      simp only [Feed.head?_of_textFrom_nil hreached htext]
      exact ⟨f, hserves, .refl f, fun a ha => nomatch ha⟩
    | cons a rest =>
      obtain ⟨g, hhead, hreads, hreach⟩ := Feed.head?_of_textFrom_cons hreached htext
      simp only [hhead]
      exact ⟨g, hserves.setFeed hr hreads, hreads, fun _ _ _ => hreach⟩
  · refine ⟨f, ?_, .refl f, fun a _ hr' => (hr hr').elim⟩
    unfold Hub.head?
    split
    · exact hserves
    · split
      · exact hserves
      · exact hserves.setFeed_of_ne hr _

theorem take (hserves : h.Serves s r f) (hc : c.reader = r → c.offset ≤ f.reader.reach) (n : Nat) :
    ∃ g, (h.take c n).2.Serves s r g ∧ f.ReadsTo g := by
  by_cases hr : c.reader = r
  · obtain ⟨g, htake, hreads⟩ := Feed.take_eq (hserves.reached (hc hr)) n
    rw [Hub.take, hserves.feed? hr]
    simp only [htake]
    exact ⟨g, hserves.setFeed hr hreads, hreads⟩
  · refine ⟨f, ?_, .refl f⟩
    unfold Hub.take
    split
    · exact hserves
    · exact hserves.setFeed_of_ne hr _

/-- Reading at a cursor draws from the feed if the cursor is one of the chain. -/
theorem reading (hserves : h.Serves s r f) (hc : c.reader = r → c.offset ≤ f.reader.reach)
    (hread : h.Reading c h') : ∃ g, h'.Serves s r g ∧ f.ReadsTo g := by
  have hhead : ∃ g, (h.head? c).2.Serves s r g ∧ f.ReadsTo g := by
    obtain ⟨g, hserves', hreads, -⟩ := hserves.head? hc
    exact ⟨g, hserves', hreads⟩
  cases hread with
  | head? => exact hhead
  | head =>
    rw [head_eq]
    exact hhead
  | tail =>
    rw [tail_eq]
    exact hhead
  | take n => exact hserves.take hc n
  | available =>
    obtain ⟨n, hn⟩ := available_eq_take h c
    rw [hn]
    exact hserves.take hc n

/-! #### What a cursor shows -/

section

variable (hserves : h.Serves s r f) (hr : c.reader = r) (hc : c.offset ≤ f.reader.reach)

include hserves hc

theorem offset_le : c.offset ≤ f.text.length := by
  refine Nat.le_trans hc ?_
  rw [Feed.text, List.length_append, Array.length_toList, Reader.reach, hserves.start]
  omega

theorem textFrom_isEmpty_iff :
    (f.textFrom c.offset).isEmpty = true ↔ c.offset = f.text.length := by
  have hle := hserves.offset_le hc
  rw [hserves.textFrom, List.isEmpty_iff, List.drop_eq_nil_iff]
  omega

include hr

theorem head?_fst : (h.head? c).1 = f.text[c.offset]? := by
  rw [← List.head?_drop, ← hserves.textFrom, ← Feed.head?_fst (hserves.reached hc), Hub.head?,
    hserves.feed? hr]
  dsimp only
  cases f.head? c.offset <;> rfl

theorem take_fst (n : Nat) : (h.take c n).1 = (f.text.drop c.offset).take n := by
  obtain ⟨g, htake, -⟩ := Feed.take_eq (hserves.reached hc) n
  rw [Hub.take, hserves.feed? hr, ← hserves.textFrom]
  simp only [htake]

theorem available_fst : (h.available c).1 = f.text.drop c.offset := by
  obtain ⟨g, havailable, -⟩ := Feed.available_eq (hserves.reached hc)
  rw [Hub.available, hserves.feed? hr, ← hserves.textFrom]
  simp only [havailable]

theorem isPlugged_iff : h.isPlugged c = true ↔ c.offset = f.text.length := by
  rw [Hub.isPlugged, hserves.feed? hr, ← hserves.textFrom_isEmpty_iff hc,
    ← Feed.plugged_eq (hserves.reached hc)]

theorem isEnded_iff :
    h.isEnded c = true ↔ c.offset = f.text.length ∧ f.source.closed = true := by
  rw [Hub.isEnded, hserves.feed? hr, ← hserves.textFrom_isEmpty_iff hc, ← Bool.and_eq_true,
    ← Feed.ended_eq (hserves.reached hc)]

end

/-! #### Tasks -/

/-- A hub whose sources were changed to what `outlets` has, and its feed with them. -/
theorem of_outlets (hserves : h.Serves s r f) {outlets : Array (Outlet α)}
    {agenda : List (HubTask α)} {source : Source α}
    (hsource : outlets[s]?.map (·.source) = some source) :
    { h with outlets, agenda }.Serves s r ⟨source, f.reader⟩ :=
  ⟨hserves.reader, hsource, hserves.start, hserves.alone, hserves.probed⟩

theorem grant (hserves : h.Serves s r f) (q : SourceRequest α) :
    (h.grant q).Serves s r (f.grant s q) := by
  obtain ⟨o, ho, hsource⟩ := Option.map_eq_some_iff.1 hserves.source
  cases q with
  | push t items =>
    by_cases ht : t = s
    · subst ht
      rw [Feed.grant, if_pos rfl, Hub.grant, hserves.source]
      cases hclosed : f.source.closed with
      | true => simpa [hclosed] using hserves
      | false =>
        simp only [hclosed]
        refine hserves.of_outlets ?_
        simp [Array.getElem?_modify, ho, hsource]
    · rw [Feed.grant, if_neg ht, Hub.grant]
      split
      · exact hserves
      · split
        · exact hserves
        · refine hserves.of_outlets ?_
          rw [Array.getElem?_modify, if_neg ht]
          exact hserves.source
  | close t =>
    by_cases ht : t = s
    · subst ht
      rw [Feed.grant, if_pos rfl, Hub.grant]
      refine hserves.of_outlets ?_
      simp [Array.getElem?_modify, ho, hsource]
    · rw [Feed.grant, if_neg ht, Hub.grant]
      refine hserves.of_outlets ?_
      rw [Array.getElem?_modify, if_neg ht]
      exact hserves.source

theorem with_rest (hserves : h.Serves s r f) (notices : Array (Notice α))
    (agenda : List (HubTask α)) : { h with notices, agenda }.Serves s r f :=
  ⟨hserves.reader, hserves.source, hserves.start, hserves.alone, hserves.probed⟩

theorem spend (hserves : h.Serves s r f) (l : Nat) :
    { h with listeners := h.listeners.modify l fun x => { x with budget := x.budget - 1 } }.Serves
      s r f where
  reader := hserves.reader
  source := hserves.source
  start := hserves.start
  alone := hserves.alone
  probed i listener hi := by
    rw [Array.getElem?_modify] at hi
    split at hi
    case isTrue =>
      obtain ⟨old, hold, rfl⟩ := Option.map_eq_some_iff.1 hi
      exact hserves.probed i old hold
    case isFalse => exact hserves.probed i listener hi

/-- A listener that was told notes it, and makes its requests if it has budget left. -/
theorem note (hserves : h.Serves s r f) (l : Nat) (listener : Listener α) (notice : Notice α) :
    (if listener.budget = 0 then { h with notices := h.notices.push notice }
      else { h with
        notices := h.notices.push notice
        listeners := h.listeners.modify l fun x => { x with budget := x.budget - 1 }
        agenda := listener.requests.map HubTask.request ++ h.agenda }).Serves s r f := by
  split
  · exact hserves.with_rest _ h.agenda
  · exact (hserves.spend l).with_rest _ _

theorem tell (hserves : h.Serves s r f) (l : Nat) (items : List α) :
    ∃ g, (h.tell l items).Serves s r g ∧ f.ReadsTo g := by
  unfold Hub.tell
  cases hl : h.listeners[l]? with
  | none => exact ⟨f, hserves, .refl f⟩
  | some listener =>
    cases hprobe : listener.probe with
    | none =>
      simp only [hprobe]
      exact ⟨f, hserves.note l listener _, .refl f⟩
    | some c =>
      -- the listener looks at its cursor, and may draw an item by that
      obtain ⟨g, hg, hreads, -⟩ := hserves.head? (hserves.probed l listener hl c hprobe)
      simp only [hprobe]
      exact ⟨g, hg.note l listener _, hreads⟩

theorem step (hserves : h.Serves s r f) :
    ∃ g, h.step.Serves s r g ∧ g.ledger = f.ledger.next s h.agenda ∧
      f.reader.reach ≤ g.reader.reach := by
  unfold Hub.step
  cases hagenda : h.agenda with
  | nil => exact ⟨f, hserves, rfl, Nat.le_refl _⟩
  | cons task rest =>
    have hserves' : { h with agenda := rest }.Serves s r f := hserves.with_rest h.notices rest
    cases task with
    | request q =>
      refine ⟨f.grant s q, hserves'.grant q, f.ledger_grant s q, ?_⟩
      exact Nat.le_of_eq (by rw [Feed.reader_grant])
    | tell l items =>
      obtain ⟨g, hg, hreads⟩ := hserves'.tell l items
      exact ⟨g, hg, hreads.ledger_eq, hreads.reach_le⟩

/-! #### More sources, readers and listeners -/

theorem listen (hserves : h.Serves s r f) (t : Nat) {l : Listener α}
    (hprobe : ∀ c ∈ l.probe, c.reader = r → c.offset ≤ f.reader.reach) :
    (h.listen t l).Serves s r f where
  reader := hserves.reader
  source := by
    obtain ⟨o, ho, hsource⟩ := Option.map_eq_some_iff.1 hserves.source
    rw [Hub.listen, Hub.source?, Array.getElem?_modify]
    split <;> simp [ho, hsource]
  start := hserves.start
  alone := hserves.alone
  probed i listener hi := by
    rw [Hub.listen, Array.getElem?_push] at hi
    split at hi
    case isTrue =>
      obtain rfl := Option.some.inj hi
      exact hprobe
    case isFalse => exact hserves.probed i listener hi

theorem addSource (hserves : h.Serves s r f) (source : Source α) :
    (h.addSource source).2.Serves s r f where
  reader := hserves.reader
  source := by
    obtain ⟨o, ho, hsource⟩ := Option.map_eq_some_iff.1 hserves.source
    obtain ⟨hlt, -⟩ := Array.getElem?_eq_some_iff.1 ho
    rw [Hub.addSource, Hub.source?, Array.getElem?_push, if_neg (Nat.ne_of_lt hlt)]
    exact hserves.source
  start := hserves.start
  alone := hserves.alone
  probed := hserves.probed

theorem attach (hserves : h.Serves s r f) {t : Nat} (ht : t ≠ s)
    (hattach : h.attach t = some (c, h')) : h'.Serves s r f := by
  obtain ⟨source, -, hpure⟩ := Option.bind_eq_some_iff.1 hattach
  obtain ⟨-, rfl⟩ := Prod.mk.inj (Option.some.inj hpure)
  obtain ⟨hlt, -⟩ := Array.getElem?_eq_some_iff.1 hserves.reader
  refine ⟨?_, hserves.source, hserves.start, fun i a ha hs => ?_, hserves.probed⟩
  · rw [Array.getElem?_push, if_neg (Nat.ne_of_lt hlt)]
    exact hserves.reader
  · rw [Array.getElem?_push] at ha
    split at ha
    case isTrue =>
      obtain rfl := Option.some.inj ha
      exact (ht hs).elim
    case isFalse => exact hserves.alone i a ha hs

end Hub.Serves

end DerivativeLexer
