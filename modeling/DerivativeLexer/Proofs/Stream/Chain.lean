import DerivativeLexer.Proofs.Stream.Serving
import Mathlib.Logic.Relation

/-! # A single chain of cursors

One cursor is taken from a source before anything was pulled from it, and every other cursor over
the source is made from that one. However reading, pushing and closing take turns from then on, also
while listeners are being told, a cursor at offset `k` shows the accepted items from index `k` on,
whichever cursor draws them first. -/

namespace DerivativeLexer

variable {α : Type} {s r : Nat}

/-! ### Runs -/

/-- A hub, the cursors of the chain that somebody holds, and what the source has accepted. -/
structure Scene (α : Type) where
  hub : Hub α
  cursors : List Cursor
  ledger : Ledger α

/-- What a cursor shows: the accepted items from its offset on, each operation in its own way. -/
structure Hub.Shows (h : Hub α) (l : Ledger α) (c : Cursor) : Prop where
  within : c.offset ≤ l.accepted.length
  head? : (h.head? c).1 = l.accepted[c.offset]?
  head : (h.head c).1 =
    if hc : c.offset < l.accepted.length then .ok l.accepted[c.offset] else .error (.head c.offset)
  head_fails : (∃ p, (h.head c).1 = .error p) ↔ c.offset = l.accepted.length
  tail : (h.tail c).1 =
    if c.offset < l.accepted.length then .ok ⟨c.reader, c.offset + 1⟩ else .error (.tail c.offset)
  tail_fails : (∃ p, (h.tail c).1 = .error p) ↔ c.offset = l.accepted.length
  take (n : Nat) : (h.take c n).1 = (l.accepted.drop c.offset).take n
  available : (h.available c).1 = l.accepted.drop c.offset
  isPlugged : h.isPlugged c = true ↔ c.offset = l.accepted.length
  isEnded : h.isEnded c = true ↔ c.offset = l.accepted.length ∧ l.closed = true

namespace Scene

variable {x y z : Scene α} {f g : Feed α} {root c : Cursor} {before : Hub α}

/-- The cursor is one of the chain that somebody holds, or one of another reader. -/
def Usable (x : Scene α) (r : Nat) (c : Cursor) : Prop := c ∈ x.cursors ∨ c.reader ≠ r

/-- The first cursor over the source `s` is taken, before anything was pulled. -/
structure Begins (before : Hub α) (s : Nat) (root : Cursor) (x : Scene α) : Prop where
  source : ∃ source, before.source? s = some source ∧ source.pulled = 0 ∧ x.ledger = .of source
  first : ∀ (i : Nat) (a : Attachment α), before.readers[i]? = some a → a.source ≠ s
  probes : ∀ (i : Nat) (l : Listener α), before.listeners[i]? = some l → ∀ c ∈ l.probe,
    c.reader ≠ root.reader
  attached : before.attach s = some (root, x.hub)
  cursors : x.cursors = [root]

/-- What can happen when no second cursor is taken from the source `s` itself: any request is made,
the next task of the hub is done, something is read at a cursor, cursors of the chain are made from
one another and dropped, sources, listeners and cursors over other sources are added, and the
notices are taken. -/
inductive Step (s r : Nat) (x : Scene α) : Scene α → Prop
  | order (q : SourceRequest α) :
    Step s r x { x with hub := { x.hub with agenda := .request q :: x.hub.agenda } }
  | work : Step s r x { x with hub := x.hub.step, ledger := x.ledger.next s x.hub.agenda }
  | read {c : Cursor} {h : Hub α} (hc : x.Usable r c) (hread : x.hub.Reading c h) :
    Step s r x { x with hub := h }
  | tail {c next : Cursor} (hc : c ∈ x.cursors) (hnext : (x.hub.tail c).1 = .ok next) :
    Step s r x { x with hub := (x.hub.tail c).2, cursors := next :: x.cursors }
  | clone {c : Cursor} (hc : c ∈ x.cursors) : Step s r x { x with cursors := c :: x.cursors }
  | drop (c : Cursor) : Step s r x { x with cursors := x.cursors.erase c }
  | listen (t : Nat) {l : Listener α} (hl : ∀ c ∈ l.probe, x.Usable r c) :
    Step s r x { x with hub := x.hub.listen t l }
  | addSource (source : Source α) : Step s r x { x with hub := (x.hub.addSource source).2 }
  | attach {t : Nat} {c : Cursor} {h : Hub α} (ht : t ≠ s)
    (hattach : x.hub.attach t = some (c, h)) : Step s r x { x with hub := h }
  | takeNotices : Step s r x { x with hub := x.hub.takeNotices.2 }

abbrev Run (s r : Nat) : Scene α → Scene α → Prop := Relation.ReflTransGen (Step s r)

/-- What was drawn and what is queued is what was accepted, and no cursor of the chain is beyond
what was drawn. -/
structure Chained (s r : Nat) (x : Scene α) (f : Feed α) : Prop where
  serves : x.hub.Serves s r f
  ledger : f.ledger = x.ledger
  held : ∀ c ∈ x.cursors, c.reader = r ∧ c.offset ≤ f.reader.reach

theorem Begins.taken (h : Begins before s root x) :
    ∃ source, before.source? s = some source ∧ x.ledger = .of source ∧
      root = ⟨before.readers.size, 0⟩ ∧
      x.hub = { before with readers := before.readers.push ⟨s, ⟨0, #[]⟩⟩ } := by
  obtain ⟨source, hsource, hpulled, hledger⟩ := h.source
  have hattached := h.attached
  rw [Hub.attach, hsource] at hattached
  obtain ⟨hroot, hhub⟩ := Prod.mk.inj (Option.some.inj hattached)
  rw [Reader.of, hpulled] at hhub
  rw [hpulled] at hroot
  exact ⟨source, hsource, hledger, hroot.symm, hhub.symm⟩

theorem Begins.chained (h : Begins before s root x) : ∃ f, x.Chained s root.reader f := by
  obtain ⟨source, hsource, hledger, rfl, hhub⟩ := h.taken
  refine ⟨⟨source, ⟨0, #[]⟩⟩, ⟨?_, ?_, rfl, fun i a ha hs => ?_, fun i l hl c hc hr => ?_⟩, ?_,
    fun c hc => ?_⟩
  · rw [hhub, Array.getElem?_push_size]
  · rw [hhub]
    exact hsource
  · rw [hhub, Array.getElem?_push] at ha
    split at ha
    case isTrue hi => exact hi
    case isFalse => exact (h.first i a ha hs).elim
  · rw [hhub] at hl
    exact (h.probes i l hl c hc hr).elim
  · rw [hledger]
    rfl
  · rw [h.cursors, List.mem_singleton] at hc
    rw [hc]
    exact ⟨rfl, Nat.le_refl _⟩

namespace Chained

theorem usable (hx : x.Chained s r f) (hc : x.Usable r c) (hr : c.reader = r) :
    c.offset ≤ f.reader.reach :=
  hc.elim (fun hmem => (hx.held c hmem).2) fun hne => (hne hr).elim

/-- A step of the hub that leaves the cursors of the chain as they are. -/
theorem of_hub (hx : x.Chained s r f) {h : Hub α} {l : Ledger α} (hserves : h.Serves s r g)
    (hledger : g.ledger = l) (hreach : f.reader.reach ≤ g.reader.reach) :
    { x with hub := h, ledger := l }.Chained s r g where
  serves := hserves
  ledger := hledger
  held c hc := ⟨(hx.held c hc).1, Nat.le_trans (hx.held c hc).2 hreach⟩

theorem step (hx : x.Chained s r f) (hstep : Step s r x y) : ∃ g, y.Chained s r g := by
  cases hstep with
  | order q => exact ⟨f, hx.of_hub (hx.serves.with_rest _ _) hx.ledger (Nat.le_refl _)⟩
  | work =>
    obtain ⟨g, hg, hledger, hreach⟩ := hx.serves.step
    rw [hx.ledger] at hledger
    exact ⟨g, hx.of_hub hg hledger hreach⟩
  | read hc hread =>
    obtain ⟨g, hg, hreads⟩ := hx.serves.reading (hx.usable hc) hread
    exact ⟨g, hx.of_hub hg (hreads.ledger_eq.trans hx.ledger) hreads.reach_le⟩
  | @tail c next hc hnext =>
    obtain ⟨hr, hoffset⟩ := hx.held c hc
    obtain ⟨g, hg, hreads, hreach⟩ := hx.serves.head? fun _ => hoffset
    -- there is a tail only if a head was drawn, and then the reader has passed the head
    obtain ⟨a, ha, rfl⟩ := Hub.head?_of_tail hnext
    have hleft : (x.hub.tail c).2 = (x.hub.head? c).2 := by rw [Hub.tail_eq]
    rw [← hleft] at hg
    have hx' := hx.of_hub hg (hreads.ledger_eq.trans hx.ledger) hreads.reach_le
    refine ⟨g, hx'.serves, hx'.ledger, fun c' hc' => ?_⟩
    rcases List.mem_cons.1 hc' with rfl | hmem
    · exact ⟨hr, hreach a ha hr⟩
    · exact hx'.held c' hmem
  | @clone c hc =>
    exact ⟨f, hx.serves, hx.ledger, fun c' hc' => (List.mem_cons.1 hc').elim
      (fun heq => heq ▸ hx.held c hc) (hx.held c')⟩
  | drop c => exact ⟨f, hx.serves, hx.ledger, fun c' hc' => hx.held c' (List.mem_of_mem_erase hc')⟩
  | listen t hl =>
    exact ⟨f, hx.of_hub (hx.serves.listen t fun c hc => hx.usable (hl c hc)) hx.ledger
      (Nat.le_refl _)⟩
  | addSource source => exact ⟨f, hx.of_hub (hx.serves.addSource source) hx.ledger (Nat.le_refl _)⟩
  | attach ht hattach =>
    exact ⟨f, hx.of_hub (hx.serves.attach ht hattach) hx.ledger (Nat.le_refl _)⟩
  | takeNotices => exact ⟨f, hx.of_hub (hx.serves.with_rest _ _) hx.ledger (Nat.le_refl _)⟩

theorem run (hx : x.Chained s r f) (hrun : Run s r x y) : ∃ g, y.Chained s r g := by
  induction hrun with
  | refl => exact ⟨f, hx⟩
  | tail _ hstep ih =>
    obtain ⟨g, hg⟩ := ih
    exact hg.step hstep

/-- A cursor of the chain shows what was accepted. -/
theorem shows (hx : x.Chained s r f) (hc : c ∈ x.cursors) : x.hub.Shows x.ledger c := by
  obtain ⟨hr, hoffset⟩ := hx.held c hc
  have htext : f.text = x.ledger.accepted := congrArg Ledger.accepted hx.ledger
  have hclosed : f.source.closed = x.ledger.closed := congrArg Ledger.closed hx.ledger
  have hwithin := hx.serves.offset_le hoffset
  have hhead := hx.serves.head?_fst hr hoffset
  have hfails : (x.hub.head? c).1 = none ↔ c.offset = f.text.length := by
    rw [hhead, List.getElem?_eq_none_iff]
    omega
  rw [htext] at hwithin hhead hfails
  refine ⟨hwithin, hhead, ?_, Hub.head_fails_iff.trans hfails, ?_, Hub.tail_fails_iff.trans hfails,
    fun n => ?_, ?_, ?_, ?_⟩
  · rw [Hub.head_eq, hhead]
    split
    case h_1 ha =>
      obtain ⟨hlt, hget⟩ := List.getElem?_eq_some_iff.1 ha
      rw [dif_pos hlt, hget]
    case h_2 ha => rw [dif_neg (Nat.not_lt.2 (List.getElem?_eq_none_iff.1 ha))]
  · rw [Hub.tail_eq, hhead]
    split
    case h_1 ha => rw [if_pos (List.getElem?_eq_some_iff.1 ha).1]
    case h_2 ha => rw [if_neg (Nat.not_lt.2 (List.getElem?_eq_none_iff.1 ha))]
  · rw [hx.serves.take_fst hr hoffset, htext]
  · rw [hx.serves.available_fst hr hoffset, htext]
  · rw [hx.serves.isPlugged_iff hr hoffset, htext]
  · rw [hx.serves.isEnded_iff hr hoffset, htext, hclosed]

end Chained

/-! ### What was accepted stays accepted -/

theorem Step.leadsTo (hstep : Step s r x y) : x.ledger.LeadsTo y.ledger := by
  cases hstep with
  | work => exact x.ledger.leadsTo_next s x.hub.agenda
  | order | read | tail | clone | drop | listen | addSource | attach | takeNotices =>
    exact .refl x.ledger

theorem Run.leadsTo (hrun : Run s r x y) : x.ledger.LeadsTo y.ledger := by
  induction hrun with
  | refl => exact .refl x.ledger
  | tail _ hstep ih => exact ih.trans hstep.leadsTo

/-! ### Requests -/

theorem run_settleWith (x : Scene α) (s r fuel : Nat) :
    ∃ l, Run s r x { x with hub := x.hub.settleWith fuel, ledger := l } := by
  induction fuel generalizing x with
  | zero => exact ⟨x.ledger, .refl⟩
  | succ fuel ih =>
    rw [Hub.settleWith]
    split
    · exact ⟨x.ledger, .refl⟩
    · obtain ⟨l, hrun⟩ := ih { x with hub := x.hub.step, ledger := x.ledger.next s x.hub.agenda }
      exact ⟨l, .head .work hrun⟩

/-- To perform a request is a run: it is entered first, and then what the listeners ask for. -/
theorem run_perform (x : Scene α) (s r : Nat) (q : SourceRequest α) :
    ∃ l, Run s r x { x with hub := x.hub.perform q, ledger := l } ∧
      (x.ledger.enter s q).LeadsTo l := by
  obtain ⟨fuel, hfuel⟩ : ∃ fuel,
      { x.hub with agenda := .request q :: x.hub.agenda }.taskBound = fuel + 1 := by
    refine Nat.exists_eq_succ_of_ne_zero (Nat.mul_ne_zero ?_ (Nat.succ_ne_zero _))
    rw [List.length_cons]
    omega
  rw [Hub.perform, Hub.settle, hfuel, Hub.settleWith, if_neg (by simp)]
  obtain ⟨l, hrun⟩ := run_settleWith { x with
    hub := { x.hub with agenda := .request q :: x.hub.agenda }.step
    ledger := x.ledger.enter s q } s r fuel
  exact ⟨l, .head (.order q) (.head .work hrun), hrun.leadsTo⟩

/-! ### The chain -/

/-- A chain of cursors, however it is used. A cursor that is held shows the accepted items from its
offset on, also after something was read at any other; what was accepted stays so; a cursor that is
not plugged does not become plugged, and one at the end of a closed source stays there. -/
theorem chain_shows_accepted (hbegins : x.Begins before s root)
    (hxy : Run s root.reader x y) (hyz : Run s root.reader y z) :
    root.offset = 0 ∧
    (∀ c ∈ y.cursors, y.hub.Shows y.ledger c) ∧
    (∀ c ∈ y.cursors, ∀ h, y.hub.Reading c h → ∀ other ∈ y.cursors, h.Shows y.ledger other) ∧
    y.ledger.accepted <+: z.ledger.accepted ∧
    ∀ c ∈ y.cursors, c ∈ z.cursors →
      (y.hub.isPlugged c = false → z.hub.isPlugged c = false) ∧
      (y.hub.isEnded c = true → z.hub.isEnded c = true) := by
  obtain ⟨f, hx⟩ := hbegins.chained
  obtain ⟨g, hy⟩ := hx.run hxy
  obtain ⟨k, hz⟩ := hy.run hyz
  have hleads := Run.leadsTo hyz
  have hoffset : root.offset = 0 := by
    obtain ⟨-, -, -, rfl, -⟩ := hbegins.taken
    rfl
  refine ⟨hoffset, fun c hc => hy.shows hc, fun c hc h hread other hother => ?_,
    hleads.accepted, fun c hc hc' => ⟨fun hopen => ?_, fun hended => ?_⟩⟩
  · -- reading is a step that enters nothing in the ledger
    obtain ⟨g', hread'⟩ := hy.step (.read (.inl hc) hread)
    exact hread'.shows hother
  · have hopen' : c.offset ≠ y.ledger.accepted.length := fun heq => by
      rw [(hy.shows hc).isPlugged.2 heq] at hopen
      cases hopen
    have hwithin := (hy.shows hc).within
    have hlength := hleads.accepted.length_le
    rw [← Bool.not_eq_true, (hz.shows hc').isPlugged]
    omega
  · have hclosed := (hy.shows hc).isEnded.1 hended
    rw [(hz.shows hc').isEnded, hleads.closed hclosed.2]
    exact hclosed

/-- A listener answers the first push with one of its own, and looks at the root meanwhile; what is
pushed after the close is dropped. -/
theorem chain_shows_accepted_sample :
    ∃ x y : Scene Char, x.Begins (Hub.empty.addSource ⟨['a'], 0, false⟩).2 0 ⟨0, 0⟩ ∧
      Run 0 0 x y ∧ y.cursors = [⟨0, 1⟩, ⟨0, 0⟩] ∧ y.ledger = ⟨['a', 'b', 'c'], true⟩ ∧
      (y.hub.head ⟨0, 1⟩).1 = .ok 'b' ∧ (y.hub.available ⟨0, 0⟩).1 = ['a', 'b', 'c'] := by
  have hbegins : Begins (Hub.empty.addSource ⟨['a'], 0, false⟩).2 0 ⟨0, 0⟩
      ⟨⟨#[⟨⟨['a'], 0, false⟩, []⟩], #[⟨0, ⟨0, #[]⟩⟩], #[], #[], []⟩, [⟨0, 0⟩], ⟨['a'], false⟩⟩ :=
    { source := ⟨_, rfl, rfl, rfl⟩
      first := fun i a ha => nomatch ha
      probes := fun i l hl => nomatch hl
      attached := rfl
      cursors := rfl }
  have hrun : Run 0 0
      ⟨⟨#[⟨⟨['a'], 0, false⟩, []⟩], #[⟨0, ⟨0, #[]⟩⟩], #[], #[], []⟩, [⟨0, 0⟩], ⟨['a'], false⟩⟩ _ :=
    .head (.listen 0 (l := ⟨"echo", 1, [.push 0 ['c']], some ⟨0, 0⟩⟩)
      fun c hc => .inl (List.mem_singleton.2 (Option.some.inj hc).symm)) <|
    .head (.tail (c := ⟨0, 0⟩) (List.mem_singleton.2 rfl) rfl) <|
    .head (.order (.push 0 ['b'])) <| .head .work <| .head .work <| .head .work <| .head .work <|
    .head (.order (.close 0)) <| .head .work <| .head .work <|
    .head (.order (.push 0 ['d'])) <| .head .work <| .refl
  obtain ⟨-, hshows, -⟩ := chain_shows_accepted hbegins hrun .refl
  exact ⟨_, _, hbegins, hrun, rfl, rfl, (hshows ⟨0, 1⟩ List.mem_cons_self).head,
    (hshows ⟨0, 0⟩ (List.mem_cons_of_mem _ List.mem_cons_self)).available⟩

end Scene

end DerivativeLexer
