import DerivativeLexer.Proofs.Stream.Pulling
import Mathlib.Logic.Relation

/-! # Chains of nodes

A place in a stream can also be kept as a node of its own. A node caches the item in its place once
somebody has looked at it, and the node behind it once somebody has asked for that one. All who
stand at a place share its node, and what a node has cached never changes. So the nodes made from
one root stand in a row, one to each place, and the items that they have cached are what the reader
of that root has drawn. Here the nodes are spelled out and the two ways to keep a place are shown to
answer alike. -/

namespace DerivativeLexer

variable {α : Type}

/-- A node of a chain; the node behind it is known by its number. -/
structure Node (α : Type) where
  source : Nat
  offset : Nat
  head : Option α
  tail : Option Nat

/-- Sources, and the nodes over them in the order in which they were made. -/
structure NodeHeap (α : Type) where
  sources : Array (Source α)
  nodes : Array (Node α)

namespace NodeHeap

def empty : NodeHeap α := ⟨#[], #[]⟩

def addSource (m : NodeHeap α) (source : Source α) : NodeHeap α :=
  { m with sources := m.sources.push source }

def grant (m : NodeHeap α) : SourceRequest α → NodeHeap α
  | .push s items => { m with sources := m.sources.modify s (·.push items) }
  | .close s => { m with sources := m.sources.modify s (·.close) }

/-- A node at what the source hands out next. -/
def root? (m : NodeHeap α) (s : Nat) : Option (Nat × NodeHeap α) :=
  m.sources[s]?.map fun source =>
    (m.nodes.size, { m with nodes := m.nodes.push ⟨s, source.pulled, none, none⟩ })

def sourceOf (m : NodeHeap α) (x : Node α) : Source α := m.sources[x.source]?.getD .fresh

def isPlugged (m : NodeHeap α) (i : Nat) : Bool :=
  match m.nodes[i]? with
  | some x => x.head.isNone && !(m.sourceOf x).hasNext
  | none => true

def isEnded (m : NodeHeap α) (i : Nat) : Bool :=
  match m.nodes[i]? with
  | some x => x.head.isNone && !(m.sourceOf x).hasNext && (m.sourceOf x).closed
  | none => true

/-- The item of a node, pulled from its source if it is not cached. -/
def head? (m : NodeHeap α) (i : Nat) : Option α × NodeHeap α :=
  match m.nodes[i]? with
  | none => (none, m)
  | some x =>
    match x.head with
    | some a => (some a, m)
    | none =>
      match (m.sourceOf x).pull? with
      | none => (none, m)
      | some (a, rest) =>
        (some a,
          { sources := m.sources.modify x.source fun _ => rest
            nodes := m.nodes.modify i fun x => { x with head := some a } })

/-- The node behind a node, made if it is not cached. -/
def next (m : NodeHeap α) (i : Nat) : Option Nat × NodeHeap α :=
  match m.nodes[i]? with
  | none => (none, m)
  | some x =>
    match x.tail with
    | some j => (some j, m)
    | none =>
      (some m.nodes.size,
        { m with
          nodes := (m.nodes.modify i fun x => { x with tail := some m.nodes.size }).push
            ⟨x.source, x.offset + 1, none, none⟩ })

/-- There is a tail only behind an item. -/
def tail? (m : NodeHeap α) (i : Nat) : Option Nat × NodeHeap α :=
  match (m.head? i).1 with
  | none => (none, (m.head? i).2)
  | some _ => (m.head? i).2.next i

/-- Going from node to node hands out the items, and comes to the node `j`. Whoever goes on from a
node has looked at its item by that. -/
inductive Iterates : NodeHeap α → Nat → List α → NodeHeap α → Nat → Prop
  | stop (m : NodeHeap α) (i : Nat) : Iterates m i [] m i
  | next {m k : NodeHeap α} {i i' j : Nat} {a : α} {items : List α}
      (hhead : (m.head? i).1 = some a) (htail : (m.tail? i).1 = some i')
      (hrest : Iterates (m.tail? i).2 i' items k j) : Iterates m i (a :: items) k j

/-- All that can be done with nodes. -/
inductive Step (m : NodeHeap α) : NodeHeap α → Prop
  | addSource (source : Source α) : Step m (m.addSource source)
  | grant (q : SourceRequest α) : Step m (m.grant q)
  | root {s i : Nat} {k : NodeHeap α} (hroot : m.root? s = some (i, k)) : Step m k
  | head (i : Nat) : Step m (m.head? i).2
  | tail (i : Nat) : Step m (m.tail? i).2

abbrev Leads : NodeHeap α → NodeHeap α → Prop := Relation.ReflTransGen Step

end NodeHeap

/-- The node is the one for the place of a cursor, whose reader and source are `f`. -/
structure Node.Mirrors (x : Node α) (h : Hub α) (c : Cursor) (f : Feed α) : Prop where
  reader : h.readerOf x.source c.reader = some f.reader
  source : h.source? x.source = some f.source
  offset_eq : x.offset = c.offset
  reached : f.Reached c.offset
  head_eq : x.head = f.reader.drawnAt? c.offset

/-- The heap has the sources of the hub, and one node for each of the places: the first node stands
at the first place, and so on. A node has its tail where there is a node for the next place, and
whatever was drawn is cached in a node. -/
structure NodeHeap.Represents (m : NodeHeap α) (places : List Cursor) (h : Hub α) : Prop where
  sources : ∀ s : Nat, m.sources[s]? = h.source? s
  length_eq : places.length = m.nodes.size
  nodup : places.Nodup
  node : ∀ (i : Nat) (x : Node α) (c : Cursor), m.nodes[i]? = some x → places[i]? = some c →
    ∃ f, x.Mirrors h c f
  tail : ∀ (i : Nat) (x : Node α) (c : Cursor), m.nodes[i]? = some x → places[i]? = some c →
    ∀ j : Nat, x.tail = some j ↔ places[j]? = some ⟨c.reader, c.offset + 1⟩
  covered : ∀ (s r : Nat) (reader : Reader α), h.readerOf s r = some reader →
    ∀ (k : Nat) (a : α), reader.drawnAt? k = some a → ⟨r, k⟩ ∈ places

section

variable {m k : NodeHeap α} {places : List Cursor} {h h' : Hub α} {c d : Cursor} {i j s t : Nat}
  {x y : Node α} {f g : Feed α} {a : α} {rest : Source α}

/-! ### Readers and feeds -/

theorem Reader.drawnAt?_remember (r : Reader α) (a : α) (k : Nat) :
    (r.remember a).drawnAt? k = if k = r.reach then some a else r.drawnAt? k := by
  simp only [drawnAt?, remember, reach, Array.getElem?_push]
  by_cases hle : r.start ≤ k
  · have hiff : k - r.start = r.drawn.size ↔ k = r.start + r.drawn.size := by omega
    simp only [if_pos hle, hiff]
  · have hne : k ≠ r.start + r.drawn.size := by omega
    simp only [if_neg hle, if_neg hne]

theorem Reader.reach_remember (r : Reader α) (a : α) : (r.remember a).reach = r.reach + 1 := by
  rw [reach, remember, Array.size_push]
  rfl

theorem Reader.exists_drawnAt? {r : Reader α} {k : Nat} (hstart : r.start ≤ k)
    (hreach : k < r.reach) : ∃ a, r.drawnAt? k = some a := by
  unfold reach at hreach
  have hsize : k - r.start < r.drawn.size := by omega
  exact ⟨r.drawn[k - r.start], by rw [drawnAt?, if_pos hstart, Array.getElem?_eq_getElem hsize]⟩

namespace Hub

theorem readerOf_inj {r : Nat} {reader other : Reader α} (hs : h.readerOf s r = some reader)
    (ht : h.readerOf t r = some other) : s = t ∧ reader = other := by
  rw [readerOf_eq_some] at hs ht
  exact Attachment.mk.inj (Option.some.inj (hs.symm.trans ht))

theorem source?_setFeed (hreader : h.readerOf t c.reader = some f.reader)
    (hsource : h.source? t = some f.source) (g : Feed α) (s : Nat) :
    (h.setFeed c g).source? s = if s = t then some g.source else h.source? s := by
  obtain ⟨o, ho, -⟩ := Option.map_eq_some_iff.1 hsource
  rw [readerOf_eq_some] at hreader
  unfold setFeed
  simp only [hreader, source?, Array.getElem?_modify]
  by_cases hs : s = t
  · subst hs
    simp [ho]
  · rw [if_neg (Ne.symm hs), if_neg hs]

theorem readerOf_setFeed (hreader : h.readerOf t c.reader = some f.reader) (g : Feed α)
    (s r : Nat) : (h.setFeed c g).readerOf s r =
      if s = t ∧ r = c.reader then some g.reader else h.readerOf s r := by
  rw [readerOf_eq_some] at hreader
  unfold setFeed
  simp only [hreader, readerOf, Array.getElem?_modify]
  by_cases hr : r = c.reader
  · subst hr
    by_cases hs : s = t
    · subst hs
      simp [hreader]
    · simp [hreader, hs, Ne.symm hs]
  · rw [if_neg (Ne.symm hr), if_neg fun hboth => hr hboth.2]

theorem source?_grant (h : Hub α) (q : SourceRequest α) (s : Nat) :
    (h.grant q).source? s = (h.source? s).map (·.grant s q) := by
  cases hsource : h.source? s with
  | some source =>
    have haffects := affects_grant hsource q
    cases haffects with
    | heeds q hsource' hreaders => exact hsource'
  | none =>
    have hsize : h.outlets[s]? = none := Option.map_eq_none_iff.1 hsource
    have hmodified : ∀ (u : Nat) (e : Outlet α → Outlet α), (h.outlets.modify u e)[s]? = none := by
      intro u e
      rw [Array.getElem?_modify, hsize]
      split_ifs
      · rfl
      · rfl
    cases q with
    | push u items =>
      rw [Hub.grant]
      split
      · exact hsource
      · split
        · exact hsource
        · exact Option.map_eq_none_iff.2 (hmodified u _)
    | close u => exact Option.map_eq_none_iff.2 (hmodified u _)

end Hub

/-! ### The node of a place -/

namespace NodeHeap

theorem getElem?_sources_grant (m : NodeHeap α) (q : SourceRequest α) (s : Nat) :
    (m.grant q).sources[s]? = m.sources[s]?.map (·.grant s q) := by
  cases q with
  | push u items =>
    simp only [grant, Array.getElem?_modify, Source.grant]
    by_cases hu : u = s
    · simp [hu]
    · simp [hu]
  | close u =>
    simp only [grant, Array.getElem?_modify, Source.grant]
    by_cases hu : u = s
    · simp [hu]
    · simp [hu]

namespace Represents

theorem exists_node (hm : m.Represents places h) (hi : places[i]? = some c) :
    ∃ x f, m.nodes[i]? = some x ∧ x.Mirrors h c f := by
  obtain ⟨hlt, -⟩ := List.getElem?_eq_some_iff.1 hi
  rw [hm.length_eq] at hlt
  have hx := Array.getElem?_eq_getElem hlt
  obtain ⟨f, hf⟩ := hm.node i _ c hx hi
  exact ⟨_, f, hx, hf⟩

theorem place_inj (hm : m.Represents places h) (hi : places[i]? = some c)
    (hj : places[j]? = some c) : i = j := by
  obtain ⟨hlt, -⟩ := List.getElem?_eq_some_iff.1 hi
  exact (List.getElem?_inj hlt hm.nodup).1 (hi.trans hj.symm)

theorem sourceOf_eq (hm : m.Represents places h) (hx : x.Mirrors h c f) :
    m.sourceOf x = f.source := by
  rw [sourceOf, hm.sources, hx.source, Option.getD_some]

theorem feed?_eq (hx : x.Mirrors h c f) : h.feed? c = some f :=
  Hub.feed?_eq_some_iff.2 ⟨_, hx.reader, hx.source⟩

end Represents

theorem getElem?_modify_cases {nodes : Array (Node α)} {e : Node α → Node α}
    (hx : nodes[i]? = some x) (hy : (nodes.modify i e)[j]? = some y) :
    (j = i ∧ y = e x) ∨ (j ≠ i ∧ nodes[j]? = some y) := by
  rw [Array.getElem?_modify] at hy
  by_cases hj : i = j
  · subst hj
    rw [if_pos rfl, hx, Option.map_some] at hy
    exact .inl ⟨rfl, (Option.some.inj hy).symm⟩
  · rw [if_neg hj] at hy
    exact .inr ⟨Ne.symm hj, hy⟩

end NodeHeap

/-! ### Heads -/

namespace Node.Mirrors

theorem draw (hx : x.Mirrors h c f) (hreach : c.offset = f.reader.reach) (a : α)
    (rest : Source α) : { x with head := some a }.Mirrors
      (h.setFeed c ⟨rest, f.reader.remember a⟩) c ⟨rest, f.reader.remember a⟩ where
  reader := by
    rw [Hub.readerOf_setFeed hx.reader]
    exact if_pos ⟨rfl, rfl⟩
  source := by
    rw [Hub.source?_setFeed hx.reader hx.source]
    exact if_pos rfl
  offset_eq := hx.offset_eq
  reached := by
    refine ⟨hx.reached.1, ?_⟩
    rw [Reader.reach_remember]
    exact Nat.le_succ_of_le hx.reached.2
  head_eq := by rw [Reader.drawnAt?_remember, if_pos hreach]

/-- The other nodes do not see that an item is drawn for one of them. -/
theorem draw_other (hy : y.Mirrors h d g) (hx : x.Mirrors h c f)
    (hreach : c.offset = f.reader.reach) (hne : d ≠ c) (a : α) (rest : Source α) :
    ∃ g', y.Mirrors (h.setFeed c ⟨rest, f.reader.remember a⟩) d g' := by
  obtain ⟨source, hsource⟩ : ∃ source,
      (h.setFeed c ⟨rest, f.reader.remember a⟩).source? y.source = some source := by
    rw [Hub.source?_setFeed hx.reader hx.source]
    split_ifs
    · exact ⟨_, rfl⟩
    · exact ⟨_, hy.source⟩
  have hreader := Hub.readerOf_setFeed hx.reader ⟨rest, f.reader.remember a⟩ y.source d.reader
  by_cases hd : d.reader = c.reader
  · -- the two nodes are in one row, but at different places
    obtain ⟨hsame, hg⟩ := Hub.readerOf_inj (hd ▸ hy.reader) hx.reader
    have hplace : d.offset ≠ f.reader.reach :=
      fun hoffset => hne (Cursor.ext hd (hoffset.trans hreach.symm))
    rw [if_pos ⟨hsame, hd⟩] at hreader
    refine ⟨⟨source, f.reader.remember a⟩, hreader, hsource, hy.offset_eq, ?_, ?_⟩
    · refine ⟨hg ▸ hy.reached.1, ?_⟩
      rw [Reader.reach_remember, ← hg]
      exact Nat.le_succ_of_le hy.reached.2
    · rw [Reader.drawnAt?_remember, if_neg hplace, ← hg]
      exact hy.head_eq
  · rw [if_neg fun hboth => hd hboth.2] at hreader
    exact ⟨⟨source, g.reader⟩, hreader.trans hy.reader, hsource, hy.offset_eq, hy.reached,
      hy.head_eq⟩

end Node.Mirrors

namespace NodeHeap.Represents

theorem draw (hm : m.Represents places h) (hx : m.nodes[i]? = some x) (hi : places[i]? = some c)
    (hmirrors : x.Mirrors h c f) (hreach : c.offset = f.reader.reach) (a : α) (rest : Source α) :
    Represents
      { sources := m.sources.modify x.source fun _ => rest
        nodes := m.nodes.modify i fun x => { x with head := some a } } places
      (h.setFeed c ⟨rest, f.reader.remember a⟩) where
  sources := by
    intro s
    rw [Hub.source?_setFeed hmirrors.reader hmirrors.source, Array.getElem?_modify, hm.sources]
    by_cases hs : s = x.source
    · subst hs
      rw [if_pos rfl, if_pos rfl, hmirrors.source]
      rfl
    · rw [if_neg (Ne.symm hs), if_neg hs]
  length_eq := by
    rw [Array.size_modify]
    exact hm.length_eq
  nodup := hm.nodup
  node := by
    intro j y d hy hd
    rcases getElem?_modify_cases hx hy with ⟨rfl, rfl⟩ | ⟨hj, hy⟩
    · obtain rfl := Option.some.inj (hi.symm.trans hd)
      exact ⟨_, hmirrors.draw hreach a rest⟩
    · obtain ⟨g, hg⟩ := hm.node j y d hy hd
      refine hg.draw_other hmirrors hreach (fun hdc => hj ?_) a rest
      exact hm.place_inj (hdc ▸ hd) hi
  tail := by
    intro j y d hy hd
    rcases getElem?_modify_cases hx hy with ⟨rfl, rfl⟩ | ⟨hj, hy⟩
    · exact hm.tail j x d hx hd
    · exact hm.tail j y d hy hd
  covered := by
    intro s r reader hreader k b hb
    rw [Hub.readerOf_setFeed hmirrors.reader] at hreader
    split_ifs at hreader with hsame
    · obtain ⟨-, rfl⟩ := hsame
      obtain rfl := Option.some.inj hreader
      rw [Reader.drawnAt?_remember] at hb
      split_ifs at hb with hk
      · rw [hk, ← hreach]
        exact List.mem_of_getElem? hi
      · exact hm.covered _ _ _ hmirrors.reader k b hb
    · exact hm.covered s r reader hreader k b hb

/-- Other sources under the same readers. -/
theorem of_sources (hm : m.Represents places h) (hsources : ∀ s : Nat, k.sources[s]? = h'.source? s)
    (hnodes : k.nodes = m.nodes) (hkept : ∀ s source, h.source? s = some source →
      ∃ source', h'.source? s = some source')
    (hreaders : ∀ s r, h'.readerOf s r = h.readerOf s r) : k.Represents places h' where
  sources := hsources
  length_eq := hnodes ▸ hm.length_eq
  nodup := hm.nodup
  node := by
    intro i x c hx hc
    obtain ⟨f, hf⟩ := hm.node i x c (hnodes ▸ hx) hc
    obtain ⟨source', hsource'⟩ := hkept _ _ hf.source
    exact ⟨⟨source', f.reader⟩, (hreaders _ _).trans hf.reader, hsource', hf.offset_eq,
      hf.reached, hf.head_eq⟩
  tail := fun i x c hx => hm.tail i x c (hnodes ▸ hx)
  covered := fun s r reader h => hm.covered s r reader ((hreaders s r).symm.trans h)

/-- The heap also represents what looks the same on the sources and readers. -/
theorem congr (hm : m.Represents places h) (hsource : ∀ s, h'.source? s = h.source? s)
    (hreader : ∀ s r, h'.readerOf s r = h.readerOf s r) : m.Represents places h' :=
  hm.of_sources (fun s => (hm.sources s).trans (hsource s).symm) rfl
    (fun s source h => ⟨source, (hsource s).trans h⟩) hreader

theorem setFeed_self (hm : m.Represents places h) (hmirrors : x.Mirrors h c f) :
    m.Represents places (h.setFeed c f) := by
  refine hm.congr (fun s => ?_) fun s r => ?_
  · rw [Hub.source?_setFeed hmirrors.reader hmirrors.source]
    split_ifs with hs
    · rw [hs, hmirrors.source]
    · rfl
  · rw [Hub.readerOf_setFeed hmirrors.reader]
    split_ifs with hboth
    · rw [hboth.1, hboth.2, hmirrors.reader]
    · rfl

/-- A node has the item that the cursor has, and pulls it where the cursor draws it. -/
theorem head? (hm : m.Represents places h) (hi : places[i]? = some c) :
    (m.head? i).1 = (h.head? c).1 ∧ (m.head? i).2.Represents places (h.head? c).2 := by
  obtain ⟨x, f, hx, hmirrors⟩ := hm.exists_node hi
  rw [NodeHeap.head?, Hub.head?, feed?_eq hmirrors]
  simp only [hx, hmirrors.head_eq, Feed.head?]
  cases hdrawn : f.reader.drawnAt? c.offset with
  | some a => exact ⟨rfl, hm.setFeed_self hmirrors⟩
  | none =>
    have hreach := (Feed.textFrom_eq_queue hmirrors.reached hdrawn).2
    simp only [hm.sourceOf_eq hmirrors]
    cases hpull : f.source.pull? with
    | none => exact ⟨rfl, hm⟩
    | some pulled => exact ⟨rfl, hm.draw hx hi hmirrors hreach pulled.1 pulled.2⟩

theorem isPlugged (hm : m.Represents places h) (hi : places[i]? = some c) :
    m.isPlugged i = h.isPlugged c := by
  obtain ⟨x, f, hx, hmirrors⟩ := hm.exists_node hi
  rw [NodeHeap.isPlugged, Hub.isPlugged, feed?_eq hmirrors]
  simp only [hx, hm.sourceOf_eq hmirrors, hmirrors.head_eq]
  rfl

theorem isEnded (hm : m.Represents places h) (hi : places[i]? = some c) :
    m.isEnded i = h.isEnded c := by
  obtain ⟨x, f, hx, hmirrors⟩ := hm.exists_node hi
  rw [NodeHeap.isEnded, Hub.isEnded, feed?_eq hmirrors]
  simp only [hx, hm.sourceOf_eq hmirrors, hmirrors.head_eq]
  rfl

end NodeHeap.Represents

/-! ### New nodes -/

theorem getElem?_concat_iff {e : Cursor} :
    (places ++ [e])[j]? = some d ↔ places[j]? = some d ∨ (j = places.length ∧ d = e) := by
  rcases Nat.lt_trichotomy j places.length with hlt | rfl | hgt
  · rw [List.getElem?_append_left hlt]
    exact (or_iff_left fun h => Nat.ne_of_lt hlt h.1).symm
  · simp [eq_comm]
  · have hbehind : (places ++ [e]).length ≤ j := by
      rw [List.length_append]
      exact hgt
    rw [List.getElem?_eq_none hbehind, List.getElem?_eq_none (Nat.le_of_lt hgt)]
    simp [Nat.ne_of_gt hgt]

theorem getElem?_push_cases {nodes : Array (Node α)} {e : Cursor}
    (hlength : places.length = nodes.size) (hy : (nodes.push x)[j]? = some y)
    (hd : (places ++ [e])[j]? = some d) :
    (y = x ∧ d = e) ∨ (nodes[j]? = some y ∧ places[j]? = some d) := by
  rw [Array.getElem?_push] at hy
  rcases getElem?_concat_iff.1 hd with hd | ⟨hj, rfl⟩
  · obtain ⟨hlt, -⟩ := List.getElem?_eq_some_iff.1 hd
    rw [if_neg (by omega)] at hy
    exact .inr ⟨hy, hd⟩
  · rw [if_pos (hj.trans hlength)] at hy
    exact .inl ⟨(Option.some.inj hy).symm, rfl⟩

theorem nodup_concat {e : Cursor} (hnodup : places.Nodup) (he : e ∉ places) :
    (places ++ [e]).Nodup := by
  rw [← List.concat_eq_append]
  exact hnodup.concat he

namespace NodeHeap.Represents

/-- No place is one of a reader that is still to come. -/
theorem reader_lt (hm : m.Represents places h) (hc : c ∈ places) : c.reader < h.readers.size := by
  obtain ⟨i, hi⟩ := List.getElem?_of_mem hc
  obtain ⟨x, f, -, hmirrors⟩ := hm.exists_node hi
  refine Nat.lt_of_not_le fun hle => ?_
  cases (Hub.readerOf_eq_none_of_le (s := x.source) hle).symm.trans hmirrors.reader

/-- There are no gaps between the places of a reader. -/
theorem mem_of_succ {r n : Nat} {reader : Reader α} (hm : m.Represents places h)
    (hreader : h.readerOf s r = some reader) (hstart : reader.start ≤ n)
    (hmem : ⟨r, n + 1⟩ ∈ places) : ⟨r, n⟩ ∈ places := by
  obtain ⟨j, hj⟩ := List.getElem?_of_mem hmem
  obtain ⟨y, g, -, hg⟩ := hm.exists_node hj
  obtain ⟨-, hsame⟩ := Hub.readerOf_inj hg.reader hreader
  have hreach : n < reader.reach := hsame ▸ hg.reached.2
  obtain ⟨a, ha⟩ := Reader.exists_drawnAt? hstart hreach
  exact hm.covered s r reader hreader n a ha

/-- The first node over a source for a new reader. -/
theorem root? (hm : m.Represents places h) (hattach : h.attach s = some (c, h')) :
    ∃ i k, m.root? s = some (i, k) ∧ (places ++ [c])[i]? = some c ∧
      k.Represents (places ++ [c]) h' := by
  obtain ⟨source, hsource, hpure⟩ := Option.bind_eq_some_iff.1 hattach
  obtain ⟨rfl, rfl⟩ := Prod.mk.inj (Option.some.inj hpure)
  have hroot : m.root? s = some (m.nodes.size,
      { m with nodes := m.nodes.push ⟨s, source.pulled, none, none⟩ }) := by
    rw [NodeHeap.root?, hm.sources, hsource]
    rfl
  have hother : ∀ (t r : Nat), r ≠ h.readers.size →
      { h with readers := h.readers.push ⟨s, .of source⟩ }.readerOf t r = h.readerOf t r := by
    intro t r hr
    rw [Hub.readerOf, Array.getElem?_push, if_neg hr, Hub.readerOf]
  have hold : ∀ d ∈ places, d.reader ≠ h.readers.size :=
    fun d hd => Nat.ne_of_lt (hm.reader_lt hd)
  refine ⟨_, _, hroot, getElem?_concat_iff.2 (.inr ⟨hm.length_eq.symm, rfl⟩), ?_⟩
  refine
    { sources := hm.sources
      length_eq := by
        rw [List.length_append, Array.size_push, hm.length_eq]
        rfl
      nodup := nodup_concat hm.nodup fun hmem => hold _ hmem rfl
      node := fun j y d hy hd => ?_
      tail := fun j y d hy hd n => ?_
      covered := fun t r reader hreader n a ha => ?_ }
  · rcases getElem?_push_cases hm.length_eq hy hd with ⟨rfl, rfl⟩ | ⟨hy, hd⟩
    · refine ⟨⟨source, .of source⟩, Hub.readerOf_eq_some.2 Array.getElem?_push_size, hsource, rfl,
        ⟨Nat.le_refl _, Nat.le_refl _⟩, ?_⟩
      simp [Reader.drawnAt?, Reader.of]
    · obtain ⟨f, hf⟩ := hm.node j y d hy hd
      exact ⟨f, (hother _ _ (hold d (List.mem_of_getElem? hd))).trans hf.reader, hf.source,
        hf.offset_eq, hf.reached, hf.head_eq⟩
  · rw [getElem?_concat_iff]
    rcases getElem?_push_cases hm.length_eq hy hd with ⟨rfl, rfl⟩ | ⟨hy, hd⟩
    · refine iff_of_false (by simp) ?_
      rintro (hn | ⟨-, hn⟩)
      · exact hold _ (List.mem_of_getElem? hn) rfl
      · simp at hn
    · rw [hm.tail j y d hy hd, or_iff_left]
      rintro ⟨-, hsame⟩
      exact hold d (List.mem_of_getElem? hd) (congrArg Cursor.reader hsame)
  · by_cases hr : r = h.readers.size
    · subst hr
      obtain ⟨-, rfl⟩ := Attachment.mk.inj <| Option.some.inj <|
        Array.getElem?_push_size.symm.trans (Hub.readerOf_eq_some.1 hreader)
      simp [Reader.drawnAt?, Reader.of] at ha
    · rw [hother t r hr] at hreader
      exact List.mem_append_left _ (hm.covered t r reader hreader n a ha)

/-- The first node for the place behind a node. -/
theorem make (hm : m.Represents places h) (hx : m.nodes[i]? = some x) (hi : places[i]? = some c)
    (hmirrors : x.Mirrors h c f) (hpast : c.offset < f.reader.reach) (htail : x.tail = none) :
    Represents
      { m with
        nodes := (m.nodes.modify i fun x => { x with tail := some m.nodes.size }).push
          ⟨x.source, x.offset + 1, none, none⟩ } (places ++ [⟨c.reader, c.offset + 1⟩]) h := by
  have hsize : places.length = (m.nodes.modify i fun x =>
      { x with tail := some m.nodes.size }).size := by
    rw [Array.size_modify, hm.length_eq]
  have hstart : f.reader.start ≤ c.offset + 1 := Nat.le_succ_of_le hmirrors.reached.1
  have hfresh : ⟨c.reader, c.offset + 1⟩ ∉ places := by
    intro hmem
    obtain ⟨j, hj⟩ := List.getElem?_of_mem hmem
    rw [(hm.tail i x c hx hi j).2 hj] at htail
    cases htail
  have hnone : f.reader.drawnAt? (c.offset + 1) = none :=
    Option.eq_none_iff_forall_ne_some.2 fun a ha =>
      hfresh (hm.covered _ _ _ hmirrors.reader _ a ha)
  have hbeyond : ⟨c.reader, c.offset + 1 + 1⟩ ∉ places :=
    fun hmem => hfresh (hm.mem_of_succ hmirrors.reader hstart hmem)
  refine
    { sources := hm.sources
      length_eq := by
        rw [List.length_append, Array.size_push, hsize]
        rfl
      nodup := nodup_concat hm.nodup hfresh
      node := fun j y d hy hd => ?_
      tail := fun j y d hy hd n => ?_
      covered := fun t r reader hreader n a ha =>
        List.mem_append_left _ (hm.covered t r reader hreader n a ha) }
  · rcases getElem?_push_cases hsize hy hd with ⟨rfl, rfl⟩ | ⟨hy, hd⟩
    · exact ⟨f, hmirrors.reader, hmirrors.source, congrArg (· + 1) hmirrors.offset_eq,
        ⟨hstart, hpast⟩, hnone.symm⟩
    · rcases getElem?_modify_cases hx hy with ⟨rfl, rfl⟩ | ⟨hj, hy⟩
      · obtain rfl := Option.some.inj (hi.symm.trans hd)
        exact ⟨f, hmirrors.reader, hmirrors.source, hmirrors.offset_eq, hmirrors.reached,
          hmirrors.head_eq⟩
      · exact hm.node j y d hy hd
  · rw [getElem?_concat_iff]
    rcases getElem?_push_cases hsize hy hd with ⟨rfl, rfl⟩ | ⟨hy, hd⟩
    · refine iff_of_false (by simp) ?_
      rintro (hn | ⟨-, hn⟩)
      · exact hbeyond (List.mem_of_getElem? hn)
      · simp at hn
    · rcases getElem?_modify_cases hx hy with ⟨rfl, rfl⟩ | ⟨hj, hy⟩
      · obtain rfl := Option.some.inj (hi.symm.trans hd)
        rw [or_iff_right fun hn => hfresh (List.mem_of_getElem? hn), hm.length_eq, Option.some_inj]
        exact ⟨fun hn => ⟨hn.symm, rfl⟩, fun hn => hn.1.symm⟩
      · rw [hm.tail j y d hy hd, or_iff_left]
        rintro ⟨-, hsame⟩
        -- two places with the same next place are the same
        obtain ⟨hreader, hoffset⟩ := Cursor.mk.inj hsame
        exact hj (hm.place_inj hd (Cursor.ext hreader (Nat.succ.inj hoffset) ▸ hi))

theorem next (hm : m.Represents places h) (hi : places[i]? = some c) (hx : m.nodes[i]? = some x)
    (hmirrors : x.Mirrors h c f) (hpast : c.offset < f.reader.reach) :
    ∃ j places', (m.next i).1 = some j ∧ places <+: places' ∧
      places'[j]? = some ⟨c.reader, c.offset + 1⟩ ∧ (m.next i).2.Represents places' h := by
  unfold NodeHeap.next
  simp only [hx]
  cases htail : x.tail with
  | some j => exact ⟨j, places, rfl, List.prefix_rfl, (hm.tail i x c hx hi j).1 htail, hm⟩
  | none =>
    refine ⟨m.nodes.size, _, rfl, List.prefix_append _ _, ?_,
      hm.make hx hi hmirrors hpast htail⟩
    exact getElem?_concat_iff.2 (.inr ⟨hm.length_eq.symm, rfl⟩)

/-- Behind a node there is one just where there is a next cursor. -/
theorem tail? (hm : m.Represents places h) (hi : places[i]? = some c)
    (hnext : (h.tail c).1 = .ok d) :
    ∃ j places', (m.tail? i).1 = some j ∧ places <+: places' ∧ places'[j]? = some d ∧
      (m.tail? i).2.Represents places' (h.tail c).2 := by
  obtain ⟨x, f, -, hmirrors⟩ := hm.exists_node hi
  obtain ⟨g, hg, hreached⟩ := Hub.stands_tail ⟨f, feed?_eq hmirrors, hmirrors.reached⟩ hnext
  obtain ⟨a, ha, rfl⟩ := Hub.head?_of_tail hnext
  have hleft : (h.tail c).2 = (h.head? c).2 := by rw [Hub.tail_eq]
  rw [hleft] at hg ⊢
  obtain ⟨hhead, hm'⟩ := hm.head? hi
  obtain ⟨y, f', hy, hmirrors'⟩ := hm'.exists_node hi
  obtain rfl : f' = g := Option.some.inj ((feed?_eq hmirrors').symm.trans hg)
  have htail : m.tail? i = (m.head? i).2.next i := by
    unfold NodeHeap.tail?
    rw [hhead, ha]
  rw [htail]
  exact hm'.next hi hy hmirrors' hreached.2

theorem tail?_of_none (hm : m.Represents places h) (hi : places[i]? = some c)
    (hhead : (h.head? c).1 = none) :
    (m.tail? i).1 = none ∧ (m.tail? i).2.Represents places (h.tail c).2 := by
  obtain ⟨hsame, hm'⟩ := hm.head? hi
  have htail : m.tail? i = (none, (m.head? i).2) := by
    unfold NodeHeap.tail?
    rw [hsame, hhead]
  rw [htail, Hub.tail_eq]
  exact ⟨rfl, hm'⟩

end NodeHeap.Represents

end

end DerivativeLexer
