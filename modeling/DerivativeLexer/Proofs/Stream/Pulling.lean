import DerivativeLexer.Proofs.Stream.Events
import Mathlib.Data.List.Nodup

/-! # Many cursors over one source

Readers that are attached to the same source take its items from one another. Each item that is
pulled goes to the memory of the reader that has pulled it, where its place is counted from the
number of items that had been pulled when the reader was attached. So the place of an item is not
its index among the pulled items. But it is never greater, and for the items of one reader it grows
with the index. -/

namespace DerivativeLexer

variable {α : Type} {s r : Nat}

/-! ### What a reader remembers -/

/-- An item that was pulled, and the cursor in whose place it is remembered. -/
structure Pull (α : Type) where
  node : Cursor
  item : α

/-- The items, remembered by the reader `r` from the given place on. -/
def placed (r first : Nat) (items : List α) : List (Pull α) :=
  items.mapIdx fun j x => ⟨⟨r, first + j⟩, x⟩

section

variable {first : Nat} {items others : List α}

theorem placed_append (r first : Nat) (items others : List α) :
    placed r first (items ++ others) =
      placed r first items ++ placed r (first + items.length) others := by
  rw [placed, List.mapIdx_append]
  congr 2
  funext i x
  rw [Nat.add_comm i, Nat.add_assoc]

@[simp] theorem length_placed (r first : Nat) (items : List α) :
    (placed r first items).length = items.length :=
  List.length_mapIdx

@[simp] theorem items_placed (r first : Nat) (items : List α) :
    (placed r first items).map (·.item) = items :=
  List.ext_getElem (by simp) (by simp [placed])

theorem mem_placed {p : Pull α} :
    p ∈ placed r first items ↔
      p.node.reader = r ∧ first ≤ p.node.offset ∧ items[p.node.offset - first]? = some p.item := by
  rw [placed, List.mem_mapIdx]
  constructor
  · rintro ⟨j, hj, rfl⟩
    exact ⟨rfl, Nat.le_add_right .., by simp [hj]⟩
  · rintro ⟨rfl, hle, hitem⟩
    obtain ⟨hj, hget⟩ := List.getElem?_eq_some_iff.1 hitem
    refine ⟨p.node.offset - first, hj, ?_⟩
    rw [Nat.add_sub_cancel' hle, hget]

theorem placed_pairwise (r first : Nat) (items : List α) :
    (placed r first items).Pairwise fun p q => p.node.offset < q.node.offset := by
  rw [List.pairwise_iff_getElem]
  intro i j hi hj hij
  simp only [placed, List.getElem_mapIdx]
  omega

end

/-- Everything that the reader `r` remembers. -/
def Reader.pulls (reader : Reader α) (r : Nat) : List (Pull α) :=
  placed r reader.start reader.drawn.toList

namespace Reader

variable {reader : Reader α} {items : List α}

@[simp] theorem toList_drawn_keep (reader : Reader α) (items : List α) :
    (reader.keep items).drawn.toList = reader.drawn.toList ++ items := by
  simp [keep]

theorem reach_keep (reader : Reader α) (items : List α) :
    (reader.keep items).reach = reader.reach + items.length := by
  rw [reach, ← Array.length_toList, toList_drawn_keep, List.length_append, Array.length_toList,
    ← Nat.add_assoc]
  rfl

theorem pulls_keep (reader : Reader α) (r : Nat) (items : List α) :
    (reader.keep items).pulls r = reader.pulls r ++ placed r reader.reach items := by
  rw [pulls, toList_drawn_keep, placed_append, Array.length_toList]
  rfl

theorem mem_pulls {p : Pull α} :
    p ∈ reader.pulls r ↔ p.node.reader = r ∧ reader.drawnAt? p.node.offset = some p.item := by
  rw [pulls, mem_placed, drawnAt?]
  by_cases h : reader.start ≤ p.node.offset <;> simp [h]

end Reader

namespace Hub

variable {h h' : Hub α} {source : Source α}

/-- The item that is remembered in the place of a cursor over the source `s`. -/
def cached? (h : Hub α) (s : Nat) (node : Cursor) : Option α :=
  (h.readerOf s node.reader).bind (·.drawnAt? node.offset)

/-- What the reader `r` of the source `s` remembers. -/
def pullsOf (h : Hub α) (s r : Nat) : List (Pull α) :=
  ((h.readerOf s r).map (·.pulls r)).getD []

/-- What the readers of the source `s` remember that they have not remembered before. -/
def pulledSince (h : Hub α) (s : Nat) (h' : Hub α) : List (Pull α) :=
  (List.range h.readers.size).flatMap fun r => (h'.pullsOf s r).drop (h.pullsOf s r).length

theorem flatMap_range_eq {β : Type} {f : Nat → List β} {n : Nat} (hr : r < n)
    (hf : ∀ i, i ≠ r → f i = []) : (List.range n).flatMap f = f r := by
  induction n with
  | zero => exact (Nat.not_lt_zero r hr).elim
  | succ n ih =>
    rw [List.range_succ, List.flatMap_append, List.flatMap_singleton]
    rcases Nat.lt_succ_iff_lt_or_eq.1 hr with hlt | rfl
    · rw [ih hlt, hf n (Nat.ne_of_gt hlt), List.append_nil]
    · have hnone : (List.range r).flatMap f = [] :=
        List.flatMap_eq_nil_iff.2 fun i hi => hf i (Nat.ne_of_lt (List.mem_range.1 hi))
      rw [hnone, List.nil_append]

theorem pulledSince_eq_nil (hpulls : ∀ r, h'.pullsOf s r = h.pullsOf s r) :
    h.pulledSince s h' = [] := by
  refine List.flatMap_eq_nil_iff.2 fun r _ => ?_
  rw [hpulls, List.drop_length]

theorem pulledSince_eq {new : List (Pull α)} (hr : r < h.readers.size)
    (hpulls : ∀ i, i ≠ r → h'.pullsOf s i = h.pullsOf s i)
    (hnew : h'.pullsOf s r = h.pullsOf s r ++ new) : h.pulledSince s h' = new := by
  rw [pulledSince, flatMap_range_eq hr fun i hi => by rw [hpulls i hi, List.drop_length], hnew,
    List.drop_left]

theorem lt_size_of_readerOf {reader : Reader α} (hreader : h.readerOf s r = some reader) :
    r < h.readers.size := by
  obtain ⟨hlt, -⟩ := Array.getElem?_eq_some_iff.1 (readerOf_eq_some.1 hreader)
  exact hlt

theorem pullsOf_congr (hreader : h'.readerOf s r = h.readerOf s r) :
    h'.pullsOf s r = h.pullsOf s r := by
  rw [pullsOf, pullsOf, hreader]

theorem pullsOf_eq {reader : Reader α} (hreader : h.readerOf s r = some reader) :
    h.pullsOf s r = reader.pulls r := by
  rw [pullsOf, hreader]
  rfl

theorem mem_pullsOf {p : Pull α} :
    p ∈ h.pullsOf s r ↔ p.node.reader = r ∧ h.cached? s p.node = some p.item := by
  rw [pullsOf, cached?]
  cases hreader : h.readerOf s r with
  | none =>
    simp only [Option.map_none, Option.getD_none, List.not_mem_nil, false_iff, not_and]
    rintro rfl
    simp [hreader]
  | some reader =>
    rw [Option.map_some, Option.getD_some, Reader.mem_pulls]
    refine and_congr_right fun hr => ?_
    rw [hr, hreader, Option.bind_some]

end Hub

/-! ### Where readers and cursors stand -/

namespace Hub

variable {h h' : Hub α} {c : Cursor} {source : Source α} {reader : Reader α}
  {q : Option (SourceRequest α)}

theorem feed?_eq_some_iff {f : Feed α} :
    h.feed? c = some f ↔
      ∃ s, h.readerOf s c.reader = some f.reader ∧ h.source? s = some f.source := by
  unfold feed?
  constructor
  · intro hfeed
    obtain ⟨⟨t, kept⟩, hattachment, hbind⟩ := Option.bind_eq_some_iff.1 hfeed
    obtain ⟨source, hsource, hpure⟩ := Option.bind_eq_some_iff.1 hbind
    obtain rfl := Option.some.inj hpure
    exact ⟨t, readerOf_eq_some.2 hattachment, hsource⟩
  · rintro ⟨s, hreader, hsource⟩
    rw [readerOf_eq_some] at hreader
    simp [hreader, hsource]

theorem Affects.readerOf_after (haffects : h.Affects s source q h')
    (hreader : h.readerOf s r = some reader) :
    ∃ after, h'.readerOf s r = some after ∧ after.start = reader.start ∧
      reader.reach ≤ after.reach := by
  cases haffects with
  | heeds q _ hreaders => exact ⟨reader, (hreaders r).trans hreader, rfl, Nat.le_refl _⟩
  | spares _ hreaders => exact ⟨reader, (hreaders r).trans hreader, rfl, Nat.le_refl _⟩
  | @draws i n drawing _ _ hdrawing _ hdrawn hreaders =>
    by_cases hi : r = i
    · subst hi
      obtain rfl := Option.some.inj (hdrawing.symm.trans hreader)
      refine ⟨_, hdrawn, rfl, ?_⟩
      rw [Reader.reach_keep]
      exact Nat.le_add_right _ _
    · exact ⟨reader, (hreaders r hi).trans hreader, rfl, Nat.le_refl _⟩
  | @attaches i _ hnone _ _ hreaders =>
    have hi : r ≠ i := by
      rintro rfl
      cases hnone.symm.trans hreader
    exact ⟨reader, (hreaders r hi).trans hreader, rfl, Nat.le_refl _⟩

/-- The cursor is over a source, in a place that its reader has passed or stands at. -/
def Stands (h : Hub α) (c : Cursor) : Prop := ∃ f, h.feed? c = some f ∧ f.Reached c.offset

theorem stands_attach {t : Nat} (hattach : h.attach t = some (c, h')) : h'.Stands c := by
  obtain ⟨source, hsource, hpure⟩ := Option.bind_eq_some_iff.1 hattach
  obtain ⟨rfl, rfl⟩ := Prod.mk.inj (Option.some.inj hpure)
  exact ⟨⟨source, .of source⟩, feed?_eq_some_iff.2
    ⟨t, readerOf_eq_some.2 Array.getElem?_push_size, hsource⟩, Nat.le_refl _, Nat.le_refl _⟩

theorem feed?_setFeed {f g : Feed α} {next : Cursor} (hfeed : h.feed? c = some f)
    (hnext : next.reader = c.reader) : (h.setFeed c g).feed? next = some g := by
  obtain ⟨t, hreader, hsource⟩ := feed?_eq_some_iff.1 hfeed
  obtain ⟨o, ho, -⟩ := Option.map_eq_some_iff.1 hsource
  rw [readerOf_eq_some] at hreader
  simp [feed?, setFeed, hnext, hreader, source?, Array.getElem?_modify, ho]

/-- There is a tail only if a head was drawn, and then the reader has passed the head. -/
theorem stands_tail {next : Cursor} (hstands : h.Stands c) (hnext : (h.tail c).1 = .ok next) :
    (h.tail c).2.Stands next := by
  obtain ⟨f, hfeed, hreached⟩ := hstands
  obtain ⟨a, ha, rfl⟩ := head?_of_tail hnext
  rw [tail_eq]
  rw [Hub.head?, hfeed] at ha ⊢
  cases hhead : f.head? c.offset with
  | none =>
    simp only [hhead] at ha
    cases ha
  | some read =>
    obtain ⟨b, g⟩ := read
    simp only [hhead]
    exact ⟨g, feed?_setFeed hfeed rfl, Feed.reached_of_head? hreached hhead⟩

end Hub

/-! ### What is kept -/

/-- What the source `s` has accepted was pulled in this order, or is queued. Each reader of it
remembers what it has pulled itself, and stands at a place that is not beyond the number of items
that were pulled. -/
structure Hub.Keeps (h : Hub α) (s : Nat) (ledger : Ledger α) (pulls : List (Pull α)) : Prop where
  records : ∃ source, h.source? s = some source ∧ source.Records ledger (pulls.map (·.item)) ∧
    source.pulled = pulls.length
  pullsOf : ∀ r, h.pullsOf s r = pulls.filter (·.node.reader = r)
  reach_le : ∀ r reader, h.readerOf s r = some reader → reader.reach ≤ pulls.length
  offset_le : ∀ (i : Nat) (p : Pull α), pulls[i]? = some p → p.node.offset ≤ i

namespace Hub.Keeps

variable {h h' : Hub α} {ledger : Ledger α} {pulls : List (Pull α)} {source : Source α}
  {q : Option (SourceRequest α)}

theorem of_same (hkeeps : h.Keeps s ledger pulls) {ledger' : Ledger α}
    (hrecords : ∃ source, h'.source? s = some source ∧
      source.Records ledger' (pulls.map (·.item)) ∧ source.pulled = pulls.length)
    (hreaders : ∀ r, h'.readerOf s r = h.readerOf s r) :
    h'.Keeps s ledger' (pulls ++ h.pulledSince s h') := by
  rw [pulledSince_eq_nil fun r => pullsOf_congr (hreaders r), List.append_nil]
  refine ⟨hrecords, fun r => ?_, fun r reader hreader => ?_, hkeeps.offset_le⟩
  · rw [pullsOf_congr (hreaders r), hkeeps.pullsOf]
  · rw [hreaders] at hreader
    exact hkeeps.reach_le r reader hreader

theorem filter_placed_self (r first : Nat) (items : List α) :
    (placed r first items).filter (·.node.reader = r) = placed r first items := by
  refine List.filter_eq_self.2 fun p hp => ?_
  simp [(mem_placed.1 hp).1]

theorem filter_placed_of_ne {i : Nat} (hi : i ≠ r) (first : Nat) (items : List α) :
    (placed r first items).filter (·.node.reader = i) = [] := by
  refine List.filter_eq_nil_iff.2 fun p hp => ?_
  simp [(mem_placed.1 hp).1, hi.symm]

theorem draws (hkeeps : h.Keeps s ledger pulls) (hsource : h.source? s = some source) {n : Nat}
    (hn : n ≤ source.queue.length) {reader : Reader α} (hreader : h.readerOf s r = some reader)
    (hsource' : h'.source? s = some (source.draw n))
    (hdrawn : h'.readerOf s r = some (reader.keep (source.queue.take n)))
    (hreaders : ∀ i, i ≠ r → h'.readerOf s i = h.readerOf s i) :
    h'.Keeps s ledger (pulls ++ h.pulledSince s h') := by
  obtain ⟨source', hsame, hrecords, hpulled⟩ := hkeeps.records
  obtain rfl := Option.some.inj (hsame.symm.trans hsource)
  have hlength : (source'.queue.take n).length = n := List.length_take_of_le hn
  have hreach := hkeeps.reach_le r reader hreader
  have hnew : h'.pullsOf s r = h.pullsOf s r ++ placed r reader.reach (source'.queue.take n) := by
    rw [pullsOf_eq hdrawn, pullsOf_eq hreader, Reader.pulls_keep]
  rw [pulledSince_eq (lt_size_of_readerOf hreader) (fun i hi => pullsOf_congr (hreaders i hi)) hnew]
  refine ⟨⟨_, hsource', ?_, ?_⟩, fun i => ?_, fun i other hother => ?_, fun i p hp => ?_⟩
  · rw [List.map_append, items_placed]
    exact hrecords.draw n
  · rw [List.length_append, length_placed, hlength, ← hpulled]
    rfl
  · rw [List.filter_append]
    by_cases hi : i = r
    · subst hi
      rw [hnew, hkeeps.pullsOf, filter_placed_self]
    · rw [pullsOf_congr (hreaders i hi), hkeeps.pullsOf, filter_placed_of_ne hi, List.append_nil]
  · rw [List.length_append, length_placed, hlength]
    by_cases hi : i = r
    · subst hi
      obtain rfl := Option.some.inj (hother.symm.trans hdrawn)
      rw [Reader.reach_keep, hlength]
      exact Nat.add_le_add_right hreach n
    · rw [hreaders i hi] at hother
      exact Nat.le_add_right_of_le (hkeeps.reach_le i other hother)
  · by_cases hi : i < pulls.length
    · rw [List.getElem?_append_left hi] at hp
      exact hkeeps.offset_le i p hp
    · -- a new item stands behind the place of the reader as far as it stands behind the old items
      rw [List.getElem?_append_right (Nat.le_of_not_lt hi), placed, List.getElem?_mapIdx] at hp
      obtain ⟨x, -, rfl⟩ := Option.map_eq_some_iff.1 hp
      dsimp only
      omega

theorem attaches (hkeeps : h.Keeps s ledger pulls) (hsource : h.source? s = some source)
    (hreader : h.readerOf s r = none) (hsource' : h'.source? s = some source)
    (hnew : h'.readerOf s r = some (.of source))
    (hreaders : ∀ i, i ≠ r → h'.readerOf s i = h.readerOf s i) :
    h'.Keeps s ledger (pulls ++ h.pulledSince s h') := by
  obtain ⟨source', hsame, hrecords, hpulled⟩ := hkeeps.records
  obtain rfl := Option.some.inj (hsame.symm.trans hsource)
  have hpulls (i : Nat) : h'.pullsOf s i = h.pullsOf s i := by
    by_cases hi : i = r
    · subst hi
      rw [pullsOf_eq hnew, Hub.pullsOf, hreader]
      rfl
    · exact pullsOf_congr (hreaders i hi)
  rw [pulledSince_eq_nil hpulls, List.append_nil]
  refine ⟨⟨source', hsource', hrecords, hpulled⟩, fun i => ?_, fun i other hother => ?_,
    hkeeps.offset_le⟩
  · rw [hpulls, hkeeps.pullsOf]
  · by_cases hi : i = r
    · subst hi
      obtain rfl := Option.some.inj (hother.symm.trans hnew)
      exact Nat.le_of_eq hpulled
    · rw [hreaders i hi] at hother
      exact hkeeps.reach_le i other hother

/-! #### What follows -/

theorem cached?_iff (hkeeps : h.Keeps s ledger pulls) (node : Cursor) (x : α) :
    h.cached? s node = some x ↔ ⟨node, x⟩ ∈ pulls := by
  have hmem : (⟨node, x⟩ : Pull α) ∈ h.pullsOf s node.reader ↔ h.cached? s node = some x := by
    rw [mem_pullsOf]
    exact and_iff_right rfl
  rw [← hmem, hkeeps.pullsOf]
  simp

/-- Among the items that one reader has pulled the places grow. -/
theorem pairwise (hkeeps : h.Keeps s ledger pulls) :
    pulls.Pairwise fun p q => p.node.reader = q.node.reader → p.node.offset < q.node.offset := by
  have hreader (r : Nat) : (pulls.filter (·.node.reader = r)).Pairwise
      fun p q => p.node.offset < q.node.offset := by
    rw [← hkeeps.pullsOf, Hub.pullsOf]
    cases h.readerOf s r with
    | none => exact .nil
    | some reader => exact placed_pairwise r _ _
  rw [List.pairwise_iff_getElem]
  intro i j hi hj hij hsame
  have hboth := List.pairwise_filter.1 (hreader pulls[j].node.reader)
  exact List.pairwise_iff_getElem.1 hboth i j hi hj hij (by simpa using hsame) (by simp)

theorem nodup (hkeeps : h.Keeps s ledger pulls) : (pulls.map (·.node)).Nodup := by
  refine List.pairwise_map.2 (hkeeps.pairwise.imp fun hlt hsame => ?_)
  have hoffset := hlt (congrArg Cursor.reader hsame)
  rw [hsame] at hoffset
  exact Nat.lt_irrefl _ hoffset

theorem offset_lt_iff (hkeeps : h.Keeps s ledger pulls) {i j : Nat} {p q : Pull α}
    (hp : pulls[i]? = some p) (hq : pulls[j]? = some q) (hsame : p.node.reader = q.node.reader) :
    p.node.offset < q.node.offset ↔ i < j := by
  obtain ⟨hi, rfl⟩ := List.getElem?_eq_some_iff.1 hp
  obtain ⟨hj, rfl⟩ := List.getElem?_eq_some_iff.1 hq
  have hgrows := List.pairwise_iff_getElem.1 hkeeps.pairwise
  refine ⟨fun hlt => ?_, fun hij => hgrows i j hi hj hij hsame⟩
  rcases Nat.lt_trichotomy i j with hij | rfl | hji
  · exact hij
  · exact (Nat.lt_irrefl _ hlt).elim
  · exact (Nat.lt_asymm hlt (hgrows j i hj hi hji hsame.symm)).elim

/-- What a cursor shows was accepted in the same order. -/
theorem shows (hkeeps : h.Keeps s ledger pulls) {c : Cursor} (hstands : h.Stands c)
    {reader : Reader α} (hreader : h.readerOf s c.reader = some reader) :
    (h.available c).1.Sublist ledger.accepted := by
  obtain ⟨f, hfeed, hreached⟩ := hstands
  obtain ⟨t, hreader', hsource⟩ := feed?_eq_some_iff.1 hfeed
  obtain ⟨rfl, hf⟩ := Attachment.mk.inj <| Option.some.inj <|
    (readerOf_eq_some.1 hreader).symm.trans (readerOf_eq_some.1 hreader')
  obtain ⟨source, hsource', hrecords, -⟩ := hkeeps.records
  obtain rfl := Option.some.inj (hsource'.symm.trans hsource)
  have hdrawn : f.reader.drawn.toList =
      (pulls.filter (·.node.reader = c.reader)).map (·.item) := by
    rw [← hkeeps.pullsOf, pullsOf_eq hreader', Reader.pulls, items_placed]
  obtain ⟨g, havailable, -⟩ := Feed.available_eq hreached
  have hshown : (h.available c).1 = f.textFrom c.offset := by
    rw [Hub.available, hfeed]
    simp only [havailable]
  rw [hshown, hrecords.accepted]
  refine (List.drop_sublist _ _).trans (List.Sublist.append_right ?_ _)
  rw [hdrawn]
  exact List.Sublist.map _ List.filter_sublist

end Hub.Keeps

namespace Venue

variable {v w : Venue α} {e : HubEvent α} {ledger : Ledger α} {pulls : List (Pull α)}

theorem Happens.keeps (h : v.Happens e w) (hkeeps : v.hub.Keeps s ledger pulls) :
    w.hub.Keeps s (ledger.after s e) (pulls ++ v.hub.pulledSince s w.hub) := by
  obtain ⟨source, hsource, hrecords, hpulled⟩ := hkeeps.records
  have haffects := h.affects hsource
  unfold Ledger.after
  generalize e.heeded = heeded at haffects
  cases haffects with
  | heeds q hsource' hreaders =>
    exact hkeeps.of_same ⟨_, hsource', hrecords.grant s q, (source.pulled_grant s q).trans hpulled⟩
      hreaders
  | spares hsource' hreaders => exact hkeeps.of_same ⟨source, hsource', hrecords, hpulled⟩ hreaders
  | draws hn hreader hsource' hdrawn hreaders =>
    exact hkeeps.draws hsource hn hreader hsource' hdrawn hreaders
  | attaches hreader hsource' hnew hreaders =>
    exact hkeeps.attaches hsource hreader hsource' hnew hreaders

/-! ### Reachable venues -/

/-- Only an existing source gets readers. -/
theorem Happens.readerOf_before {reader : Reader α} (h : v.Happens e w)
    (hreader : w.hub.readerOf s r = some reader) :
    (∃ reader', v.hub.readerOf s r = some reader') ∨ ∃ source, v.hub.source? s = some source := by
  have hsame : v.hub.readerOf s r = some reader → (∃ reader', v.hub.readerOf s r = some reader') ∨
      ∃ source, v.hub.source? s = some source := fun hold => .inl ⟨reader, hold⟩
  cases h with
  | @task task rest asked hagenda hasked =>
    cases task with
    | request q =>
      rw [Hub.step_request hagenda] at hreader
      have hreaders := Hub.readers_grant { v.hub with agenda := rest } q
      exact hsame ((Hub.readerOf_congr hreaders s r).symm.trans hreader)
    | tell k items =>
      rw [Hub.step_tell hagenda] at hreader
      obtain ⟨others, read, hhears⟩ := Hub.hears_tell { v.hub with agenda := rest } k items
      have hread := (Hub.readerOf_congr hhears.readers_eq s r).symm.trans hreader
      rcases hhears.reads with rfl | ⟨c, -, hdraws⟩
      · exact hsame hread
      · exact .inl (hdraws.readerOf_before hread)
  | read hc hread => exact .inl (hread.draws.readerOf_before hreader)
  | @tail c next hc hnext =>
    have hdraws : v.hub.Draws c (v.hub.tail c).2 := Hub.Reading.tail.draws
    exact .inl (hdraws.readerOf_before hreader)
  | attach hattach =>
    obtain ⟨source, hsource, hpure⟩ := Option.bind_eq_some_iff.1 hattach
    obtain ⟨-, rfl⟩ := Prod.mk.inj (Option.some.inj hpure)
    rw [Hub.readerOf_eq_some, Array.getElem?_push] at hreader
    split at hreader
    case isTrue =>
      obtain ⟨rfl, -⟩ := Attachment.mk.inj (Option.some.inj hreader)
      exact .inr ⟨source, hsource⟩
    case isFalse => exact hsame (Hub.readerOf_eq_some.2 hreader)
  | call | addSource | listen | takeNotices => exact hsame hreader

theorem Happens.source?_isSome {source : Source α} (h : v.Happens e w)
    (hsource : v.hub.source? s = some source) : ∃ source', w.hub.source? s = some source' := by
  have haffects := h.affects hsource
  generalize e.heeded = heeded at haffects
  cases haffects with
  | heeds q hsource' _ => exact ⟨_, hsource'⟩
  | spares hsource' _ => exact ⟨_, hsource'⟩
  | draws _ _ hsource' _ _ => exact ⟨_, hsource'⟩
  | attaches _ hsource' _ _ => exact ⟨_, hsource'⟩

theorem Reachable.source?_isSome (h : v.Reachable) :
    ∀ s r reader, v.hub.readerOf s r = some reader → ∃ source, v.hub.source? s = some source := by
  refine h.induct (P := fun v => ∀ s r reader, v.hub.readerOf s r = some reader →
    ∃ source, v.hub.source? s = some source) (fun s r reader hreader => ?_)
    fun _ ih hnext s r reader hreader => ?_
  · rw [Hub.readerOf_eq_none_of_le (Nat.zero_le r)] at hreader
    cases hreader
  · rcases hnext.readerOf_before hreader with ⟨before, hbefore⟩ | ⟨source, hsource⟩
    · obtain ⟨source, hsource⟩ := ih s r before hbefore
      exact hnext.source?_isSome hsource
    · exact hnext.source?_isSome hsource

theorem Happens.stands {c : Cursor} (h : v.Happens e w) (hstands : v.hub.Stands c) :
    w.hub.Stands c := by
  obtain ⟨f, hfeed, hreached⟩ := hstands
  obtain ⟨s, hreader, hsource⟩ := Hub.feed?_eq_some_iff.1 hfeed
  have haffects := h.affects hsource
  obtain ⟨source', hsource'⟩ := h.source?_isSome hsource
  obtain ⟨reader', hreader', hstart, hreach⟩ := haffects.readerOf_after hreader
  refine ⟨⟨source', reader'⟩, Hub.feed?_eq_some_iff.2 ⟨s, hreader', hsource'⟩, ?_, ?_⟩
  · exact hstart.symm ▸ hreached.1
  · exact Nat.le_trans hreached.2 hreach

theorem Happens.mem_cursors {c : Cursor} (h : v.Happens e w)
    (hstands : ∀ c ∈ v.cursors, v.hub.Stands c) (hc : c ∈ w.cursors) :
    c ∈ v.cursors ∨ w.hub.Stands c := by
  cases h with
  | @tail before next hbefore hnext =>
    rcases List.mem_cons.1 hc with rfl | hold
    · exact .inr (Hub.stands_tail (hstands _ hbefore) hnext)
    · exact .inl hold
  | attach hattach =>
    rcases List.mem_cons.1 hc with rfl | hold
    · exact .inr (Hub.stands_attach hattach)
    · exact .inl hold
  | _ => exact .inl hc

theorem Reachable.stands (h : v.Reachable) : ∀ c ∈ v.cursors, v.hub.Stands c := by
  refine h.induct (P := fun v => ∀ c ∈ v.cursors, v.hub.Stands c) (fun c hc => nomatch hc)
    fun _ ih hnext c hc => ?_
  exact (hnext.mem_cursors ih hc).elim (fun hold => hnext.stands (ih c hold)) id

/-! ### Pulls -/

/-- What is pulled from the source `s` in a run, in this order. -/
inductive Pulls (s : Nat) (v : Venue α) : List (HubEvent α) → List (Pull α) → Venue α → Prop
  | refl : Pulls s v [] [] v
  | snoc {trace : List (HubEvent α)} {pulls : List (Pull α)} {w w' : Venue α} {e : HubEvent α}
      (h : Pulls s v trace pulls w) (hnext : w.Happens e w') :
      Pulls s v (trace ++ [e]) (pulls ++ w.hub.pulledSince s w'.hub) w'

theorem Runs.exists_pulls {trace : List (HubEvent α)} (h : v.Runs trace w) (s : Nat) :
    ∃ pulls, v.Pulls s trace pulls w := by
  induction h with
  | refl => exact ⟨[], .refl⟩
  | snoc _ hnext ih =>
    obtain ⟨pulls, hpulls⟩ := ih
    exact ⟨_, .snoc hpulls hnext⟩

/-- What was accepted was pulled in this order or is queued. Each item that was pulled is remembered
in the place of exactly one cursor. -/
structure Accounts (v : Venue α) (s : Nat) (accepted : List α) (pulls : List (Pull α)) : Prop where
  accepted_eq : ∃ source, v.hub.source? s = some source ∧
    accepted = pulls.map (·.item) ++ source.queue
  cached?_iff : ∀ node x, v.hub.cached? s node = some x ↔ ⟨node, x⟩ ∈ pulls
  nodup : (pulls.map (·.node)).Nodup
  offset_le : ∀ (i : Nat) (p : Pull α), pulls[i]? = some p → p.node.offset ≤ i
  offset_lt_iff : ∀ (i j : Nat) (p q : Pull α), pulls[i]? = some p → pulls[j]? = some q →
    p.node.reader = q.node.reader → (p.node.offset < q.node.offset ↔ i < j)
  shows : ∀ c ∈ v.cursors, ∀ reader, v.hub.readerOf s c.reader = some reader →
    (v.hub.available c).1.Sublist accepted

theorem Reachable.keeps_addSource {start first : Venue α} {source : Source α}
    (hstart : start.Reachable) (hadd : start.Happens (.addSource source) first) :
    first.hub.Keeps start.hub.outlets.size (.of source) [] := by
  cases hadd with
  | addSource hpulled =>
    have hnone : start.hub.source? start.hub.outlets.size = none := by
      rw [Hub.source?, Array.getElem?_eq_none (Nat.le_refl _), Option.map_none]
    have hreaders (r : Nat) : start.hub.readerOf start.hub.outlets.size r = none := by
      refine Option.eq_none_iff_forall_ne_some.2 fun reader hreader => ?_
      obtain ⟨source, hsource⟩ := hstart.source?_isSome _ r reader hreader
      cases hnone.symm.trans hsource
    refine ⟨⟨source, ?_, ⟨rfl, rfl⟩, hpulled⟩, fun r => ?_, fun r reader hreader => ?_,
      fun i p hp => ?_⟩
    · rw [Hub.addSource, Hub.source?, Array.getElem?_push_size, Option.map_some]
    · exact congrArg (fun reader => (reader.map (·.pulls r)).getD []) (hreaders r)
    · cases (hreaders r).symm.trans hreader
    · cases hp

theorem Pulls.keeps {first : Venue α} {source : Source α} {trace : List (HubEvent α)}
    (hpulls : first.Pulls s trace pulls v) (hfirst : first.Reachable)
    (hkeeps : first.hub.Keeps s (.of source) []) :
    v.Reachable ∧ v.hub.Keeps s ((Ledger.of source).along s trace) pulls := by
  induction hpulls with
  | refl => exact ⟨hfirst, hkeeps⟩
  | snoc _ hnext ih =>
    rw [Ledger.along_snoc]
    exact ⟨ih.1.runs (.one hnext), hnext.keeps ih.2⟩

/-- Cursors may be taken from a source at any time and read whenever one likes, also while listeners
are being told something. What the source has accepted then always is what was pulled from it, in
this order, and then what is queued. -/
theorem pulls_accounted {start first : Venue α} {source : Source α} (hstart : start.Reachable)
    (hadd : start.Happens (.addSource source) first) :
    (∀ trace v, first.Runs trace v → ∃ pulls, first.Pulls start.hub.outlets.size trace pulls v) ∧
    ∀ trace pulls v, first.Pulls start.hub.outlets.size trace pulls v →
      v.Accounts start.hub.outlets.size
        ((Ledger.of source).along start.hub.outlets.size trace).accepted pulls := by
  refine ⟨fun trace v hruns => hruns.exists_pulls _, fun trace pulls v hpulls => ?_⟩
  obtain ⟨hreachable, hkeeps⟩ := hpulls.keeps (hstart.runs (.one hadd))
    (hstart.keeps_addSource hadd)
  obtain ⟨source', hsource, hrecords, -⟩ := hkeeps.records
  exact
    { accepted_eq := ⟨source', hsource, hrecords.accepted⟩
      cached?_iff := hkeeps.cached?_iff
      nodup := hkeeps.nodup
      offset_le := hkeeps.offset_le
      offset_lt_iff := fun _ _ _ _ hp hq hsame => hkeeps.offset_lt_iff hp hq hsame
      shows := fun c hc _ hreader => hkeeps.shows (hreachable.stands c hc) hreader }

/-! ### Two roots -/

def bare : Venue Char := ⟨(Hub.empty.addSource .fresh).2, []⟩

def rooted : Venue Char where
  hub := { bare.hub with readers := #[⟨0, ⟨0, #[]⟩⟩, ⟨0, ⟨0, #[]⟩⟩] }
  cursors := [⟨1, 0⟩, ⟨0, 0⟩]

/-- A listener that looks at one of two cursors and answers the first push with another. -/
def peek : Listener Char := ⟨"peek", 1, [.push 0 ['c']], some ⟨1, 0⟩⟩

def peeking : Venue Char := { rooted with hub := rooted.hub.listen 0 peek }

def peeked : Hub Char := peeking.hub.perform (.push 0 ['a', 'b'])

def peekingTrace : List (HubEvent Char) :=
  [.attach 0, .attach 0, .listen 0 peek] ++
    .call (.push 0 ['a', 'b']) :: (peeking.hub.performed (.push 0 ['a', 'b'])).map (.task · []) ++
      [.read ⟨0, 0⟩]

theorem runs_peeking : bare.Runs peekingTrace ⟨(peeked.head? ⟨0, 0⟩).2, rooted.cursors⟩ := by
  have hattached : bare.Runs [.attach 0, .attach 0] rooted :=
    (Runs.refl.snoc (.attach rfl)).snoc (.attach rfl)
  have hlistens : rooted.Runs [.listen 0 peek] peeking :=
    .one (.listen 0 (by simp [peek, rooted]))
  have hpushed := (hattached.trans hlistens).trans (runs_perform rfl (.push 0 ['a', 'b']))
  exact hpushed.snoc (.read (c := ⟨0, 0⟩) (by simp [rooted, peeking]) .head?)

/-- The listener takes the first item, in the middle of the push, and the other cursor the
second. -/
theorem pulls_accounted_sample : ∃ pulls,
    bare.Pulls 0 peekingTrace pulls ⟨(peeked.head? ⟨0, 0⟩).2, rooted.cursors⟩ ∧
      ['a', 'b', 'c'] = pulls.map (·.item) ++ ['c'] ∧ ⟨⟨1, 0⟩, 'a'⟩ ∈ pulls ∧
        ⟨⟨0, 0⟩, 'b'⟩ ∈ pulls ∧ (pulls.map (·.node)).Nodup := by
  have hadd : Happens ⟨.empty, []⟩ (.addSource .fresh) bare := .addSource rfl
  obtain ⟨hexists, haccounts⟩ := pulls_accounted ⟨[], .refl⟩ hadd
  obtain ⟨pulls, hpulls⟩ := hexists _ _ runs_peeking
  have h := haccounts _ _ _ hpulls
  obtain ⟨source, hsource, haccepted⟩ := h.accepted_eq
  have hqueue : (peeked.head? ⟨0, 0⟩).2.source? 0 = some ⟨['c'], 2, false⟩ := by decide
  obtain rfl := Option.some.inj (hqueue.symm.trans hsource)
  have hledger : ((Ledger.of .fresh).along 0 peekingTrace).accepted = ['a', 'b', 'c'] := by decide
  exact ⟨pulls, hpulls, hledger.symm.trans haccepted, (h.cached?_iff _ _).1 (by decide),
    (h.cached?_iff _ _).1 (by decide), h.nodup⟩

end Venue

end DerivativeLexer
