import DerivativeLexer.Proofs.Stream.Nodes
import DerivativeLexer.Proofs.Stream.Notifying

/-! # Whatever happens, done with nodes

Somebody who goes from node to node is handed out what a cursor takes. So everything that can happen
at a hub can be done with nodes as well: there is a node for every cursor, it answers as the cursor
does, and it stays the same node from then on. -/

namespace DerivativeLexer

variable {α : Type} {m k : NodeHeap α} {places : List Cursor} {h h' : Hub α} {c d : Cursor}
  {i j : Nat} {f g : Feed α} {a : α}

/-! ### From node to node -/

theorem modify_modify {β : Type} (xs : Array β) (i : Nat) (p q : β → β) :
    (xs.modify i p).modify i q = xs.modify i fun x => q (p x) := by
  refine Array.ext_getElem? fun j => ?_
  simp only [Array.getElem?_modify]
  split_ifs
  · rw [Option.map_map]
    rfl
  · rfl

namespace Hub

theorem setFeed_setFeed (hfeed : h.feed? c = some f) (hnext : d.reader = c.reader)
    (g last : Feed α) : (h.setFeed c g).setFeed d last = h.setFeed c last := by
  obtain ⟨t, hreader, -⟩ := feed?_eq_some_iff.1 hfeed
  rw [readerOf_eq_some] at hreader
  simp only [setFeed, hreader, hnext, Array.getElem?_modify, if_true, Option.map_some,
    modify_modify]

theorem take_of_none (hfeed : h.feed? c = some f) (hhead : (h.head? c).1 = none) (n : Nat) :
    h.take c (n + 1) = ([], h.setFeed c f) := by
  rw [head?, hfeed] at hhead
  rw [take, hfeed]
  cases hread : f.head? c.offset with
  | none => simp only [Feed.take, hread]
  | some read =>
    simp only [hread] at hhead
    cases hhead

theorem take_of_some (hfeed : h.feed? c = some f) (hhead : (h.head? c).1 = some a) (n : Nat) :
    h.take c (n + 1) =
      (a :: ((h.head? c).2.take ⟨c.reader, c.offset + 1⟩ n).1,
        ((h.head? c).2.take ⟨c.reader, c.offset + 1⟩ n).2) := by
  rw [head?, hfeed] at hhead ⊢
  rw [take, hfeed]
  cases hread : f.head? c.offset with
  | none =>
    simp only [hread] at hhead
    cases hhead
  | some read =>
    obtain ⟨b, g⟩ := read
    simp only [hread, Option.some_inj] at hhead ⊢
    subst hhead
    have hrest : (h.setFeed c g).feed? ⟨c.reader, c.offset + 1⟩ = some g := feed?_setFeed hfeed rfl
    simp only [take, hrest, Feed.take, hread]
    rw [setFeed_setFeed (d := ⟨c.reader, c.offset + 1⟩) hfeed rfl]

end Hub

namespace NodeHeap

theorem Iterates.leads {items : List α} (h : m.Iterates i items k j) : m.Leads k := by
  induction h with
  | stop => exact .refl
  | next _ _ _ ih => exact .head (.tail _) ih

namespace Represents

/-- What a cursor takes is handed out from node to node. -/
theorem iterates (hm : m.Represents places h) (hi : places[i]? = some c) (n : Nat) :
    ∃ k j places', m.Iterates i (h.take c n).1 k j ∧ places <+: places' ∧
      places'[j]? = some ⟨c.reader, c.offset + (h.take c n).1.length⟩ ∧
      k.Represents places' (h.take c n).2 := by
  induction n generalizing m places h c i with
  | zero =>
    obtain ⟨x, f, -, hmirrors⟩ := hm.exists_node hi
    have htake : h.take c 0 = ([], h.setFeed c f) := by
      rw [Hub.take, feed?_eq hmirrors]
      rfl
    rw [htake]
    exact ⟨m, i, places, .stop m i, List.prefix_rfl, hi, hm.setFeed_self hmirrors⟩
  | succ n ih =>
    obtain ⟨x, f, -, hmirrors⟩ := hm.exists_node hi
    have hfeed := feed?_eq hmirrors
    cases hhead : (h.head? c).1 with
    | none =>
      rw [Hub.take_of_none hfeed hhead]
      exact ⟨m, i, places, .stop m i, List.prefix_rfl, hi, hm.setFeed_self hmirrors⟩
    | some a =>
      have htail : h.tail c = (.ok ⟨c.reader, c.offset + 1⟩, (h.head? c).2) := by
        rw [Hub.tail_eq, hhead]
      obtain ⟨i', places₁, hi', hextends, hplace, hm₁⟩ := hm.tail? hi (congrArg Prod.fst htail)
      rw [htail] at hm₁
      obtain ⟨k, j, places₂, hiterates, hextends', hlast, hm₂⟩ := ih hm₁ hplace
      rw [Hub.take_of_some hfeed hhead]
      refine ⟨k, j, places₂, .next ((hm.head? hi).1.trans hhead) hi' hiterates,
        hextends.trans hextends', ?_, hm₂⟩
      rw [hlast, List.length_cons, Nat.add_assoc, Nat.add_comm 1]

/-- A node behind all that was there to be handed out is plugged. -/
theorem isPlugged_of_length (hm : m.Represents places (h.setFeed c g)) (hfeed : h.feed? c = some f)
    (hreads : f.ReadsTo g) (hstart : f.reader.start ≤ c.offset) {l : Nat}
    (hj : places[j]? = some ⟨c.reader, c.offset + l⟩) (hl : (f.textFrom c.offset).length ≤ l) :
    m.isPlugged j = true := by
  obtain ⟨y, g', -, hmirrors⟩ := hm.exists_node hj
  have hfeed' : (h.setFeed c g).feed? ⟨c.reader, c.offset + l⟩ = some g :=
    Hub.feed?_setFeed hfeed rfl
  obtain rfl : g' = g := Option.some.inj ((feed?_eq hmirrors).symm.trans hfeed')
  rw [hm.isPlugged hj, Hub.isPlugged, hfeed']
  simp only
  rw [Feed.plugged_eq hmirrors.reached, hreads.textFrom_eq, Feed.textFrom_add hstart,
    List.drop_eq_nil_of_le hl]
  rfl

theorem take (hm : m.Represents places h) (hi : places[i]? = some c) (n : Nat) :
    ∃ k j, m.Iterates i (h.take c n).1 k j ∧
      ((h.take c n).1.length = n ∨ k.isPlugged j = true) := by
  obtain ⟨k, j, places', hiterates, -, hj, hm'⟩ := hm.iterates hi n
  refine ⟨k, j, hiterates, ?_⟩
  obtain ⟨x, f, -, hmirrors⟩ := hm.exists_node hi
  have hfeed := feed?_eq hmirrors
  obtain ⟨g, htake, hreads⟩ := Feed.take_eq hmirrors.reached n
  have htake' : h.take c n = ((f.textFrom c.offset).take n, h.setFeed c g) := by
    rw [Hub.take, hfeed]
    simp only [htake]
  rw [htake'] at hj hm' ⊢
  simp only [List.length_take] at hj ⊢
  by_cases hn : n ≤ (f.textFrom c.offset).length
  · exact .inl (Nat.min_eq_left hn)
  · refine .inr (hm'.isPlugged_of_length hfeed hreads hmirrors.reached.1 hj ?_)
    omega

theorem available (hm : m.Represents places h) (hi : places[i]? = some c) :
    ∃ k j places', m.Iterates i (h.available c).1 k j ∧ k.isPlugged j = true ∧
      places <+: places' ∧ k.Represents places' (h.available c).2 := by
  obtain ⟨n, hn⟩ := h.available_eq_take c
  obtain ⟨k, j, places', hiterates, hextends, hj, hm'⟩ := hm.iterates hi n
  rw [← hn] at hiterates hj hm'
  refine ⟨k, j, places', hiterates, ?_, hextends, hm'⟩
  obtain ⟨x, f, -, hmirrors⟩ := hm.exists_node hi
  have hfeed := feed?_eq hmirrors
  obtain ⟨g, havailable, hreads⟩ := Feed.available_eq hmirrors.reached
  have havailable' : h.available c = (f.textFrom c.offset, h.setFeed c g) := by
    rw [Hub.available, hfeed]
    simp only [havailable]
  rw [havailable'] at hj hm'
  exact hm'.isPlugged_of_length hfeed hreads hmirrors.reached.1 hj (Nat.le_refl _)

/-! ### What can be done -/

theorem reading (hm : m.Represents places h) (hc : c ∈ places) (hread : h.Reading c h') :
    ∃ k places', m.Leads k ∧ places <+: places' ∧ k.Represents places' h' := by
  obtain ⟨i, hi⟩ := List.getElem?_of_mem hc
  have hhead : ∃ k places', m.Leads k ∧ places <+: places' ∧
      k.Represents places' (h.head? c).2 :=
    ⟨_, places, .single (.head i), List.prefix_rfl, (hm.head? hi).2⟩
  cases hread with
  | head? => exact hhead
  | head =>
    rw [Hub.head_eq]
    exact hhead
  | tail =>
    cases hread : (h.head? c).1 with
    | none =>
      exact ⟨_, places, .single (.tail i), List.prefix_rfl, (hm.tail?_of_none hi hread).2⟩
    | some a =>
      have hnext : (h.tail c).1 = .ok ⟨c.reader, c.offset + 1⟩ := by
        rw [Hub.tail_eq, hread]
      obtain ⟨j, places', -, hextends, -, hm'⟩ := hm.tail? hi hnext
      exact ⟨_, places', .single (.tail i), hextends, hm'⟩
  | take n =>
    obtain ⟨k, j, places', hiterates, hextends, -, hm'⟩ := hm.iterates hi n
    exact ⟨k, places', hiterates.leads, hextends, hm'⟩
  | available =>
    obtain ⟨k, j, places', hiterates, -, hextends, hm'⟩ := hm.available hi
    exact ⟨k, places', hiterates.leads, hextends, hm'⟩

theorem grant (hm : m.Represents places h) (q : SourceRequest α) :
    (m.grant q).Represents places (h.grant q) := by
  refine hm.of_sources (fun s => ?_) ?_ (fun s source hsource => ?_)
    (Hub.readerOf_congr (h.readers_grant q))
  · rw [getElem?_sources_grant, hm.sources, Hub.source?_grant]
  · cases q <;> rfl
  · exact ⟨_, by rw [Hub.source?_grant, hsource, Option.map_some]⟩

theorem addSource (hm : m.Represents places h) (source : Source α) :
    (m.addSource source).Represents places (h.addSource source).2 := by
  have hsize : m.sources.size = h.outlets.size := by
    refine Nat.le_antisymm (Nat.le_of_not_lt fun hlt => ?_) (Nat.le_of_not_lt fun hlt => ?_)
    · have hsource := hm.sources h.outlets.size
      rw [Hub.source?, Array.getElem?_eq_none (Nat.le_refl _), Array.getElem?_eq_getElem hlt]
        at hsource
      cases hsource
    · have hsource := hm.sources m.sources.size
      rw [Hub.source?, Array.getElem?_eq_none (Nat.le_refl _), Array.getElem?_eq_getElem hlt]
        at hsource
      cases hsource
  have hsources : ∀ s : Nat, (m.addSource source).sources[s]? =
      (h.addSource source).2.source? s := by
    intro s
    rw [NodeHeap.addSource, Hub.addSource, Hub.source?, Array.getElem?_push, Array.getElem?_push,
      hsize]
    split_ifs
    · rfl
    · exact hm.sources s
  refine hm.of_sources hsources rfl (fun s old hold => ?_) fun _ _ => rfl
  obtain ⟨o, ho, rfl⟩ := Option.map_eq_some_iff.1 hold
  obtain ⟨hlt, -⟩ := Array.getElem?_eq_some_iff.1 ho
  refine ⟨o.source, ?_⟩
  rw [Hub.addSource, Hub.source?, Array.getElem?_push, if_neg (Nat.ne_of_lt hlt), ho,
    Option.map_some]

end Represents

end NodeHeap

/-! ### Venues -/

namespace Hub

theorem source?_listen (h : Hub α) (t : Nat) (l : Listener α) (s : Nat) :
    (h.listen t l).source? s = h.source? s := by
  rw [listen, source?, Array.getElem?_modify, source?]
  split_ifs
  · rw [Option.map_map]
    rfl
  · rfl

theorem probe?_listen {l : Listener α} (hc : (h.listen t l).probe? i = some c) :
    h.probe? i = some c ∨ l.probe = some c := by
  rw [probe?, listen, Array.getElem?_push] at hc
  split_ifs at hc
  · exact .inr hc
  · exact .inl hc

end Hub

/-- The heap has nodes for all the cursors that somebody can read at. -/
structure NodeHeap.Carries (m : NodeHeap α) (places : List Cursor) (v : Venue α) : Prop where
  represents : m.Represents places v.hub
  held : ∀ c ∈ v.cursors, c ∈ places
  probed : ∀ l c, v.hub.probe? l = some c → c ∈ places

/-- The node `i` answers as the cursor does, whatever is asked. -/
structure NodeHeap.Answers (m : NodeHeap α) (i : Nat) (h : Hub α) (c : Cursor) : Prop where
  isPlugged : m.isPlugged i = h.isPlugged c
  isEnded : m.isEnded i = h.isEnded c
  head : (m.head? i).1 = (h.head? c).1
  tail : (∃ j, (m.tail? i).1 = some j) ↔ ∃ d, (h.tail c).1 = .ok d
  take : ∀ n, ∃ k j, m.Iterates i (h.take c n).1 k j ∧
    ((h.take c n).1.length = n ∨ k.isPlugged j = true)
  available : ∃ k j, m.Iterates i (h.available c).1 k j ∧ k.isPlugged j = true

namespace NodeHeap

theorem Represents.answers (hm : m.Represents places h) (hi : places[i]? = some c) :
    m.Answers i h c where
  isPlugged := hm.isPlugged hi
  isEnded := hm.isEnded hi
  head := (hm.head? hi).1
  tail := by
    constructor
    · rintro ⟨j, hj⟩
      cases hhead : (h.head? c).1 with
      | none =>
        rw [(hm.tail?_of_none hi hhead).1] at hj
        cases hj
      | some a => exact ⟨⟨c.reader, c.offset + 1⟩, by rw [Hub.tail_eq, hhead]⟩
    · rintro ⟨d, hd⟩
      obtain ⟨j, -, hj, -⟩ := hm.tail? hi hd
      exact ⟨j, hj⟩
  take := hm.take hi
  available := by
    obtain ⟨k, j, -, hiterates, hplugged, -⟩ := hm.available hi
    exact ⟨k, j, hiterates, hplugged⟩

namespace Carries

variable {v w : Venue α} {e : HubEvent α} {trace : List (HubEvent α)}

theorem answers (hm : m.Carries places v) (hc : c ∈ v.cursors) :
    ∃ i : Nat, places[i]? = some c ∧ m.Answers i v.hub c := by
  obtain ⟨i, hi⟩ := List.getElem?_of_mem (hm.held c hc)
  exact ⟨i, hi, hm.represents.answers hi⟩

theorem of_empty : (NodeHeap.empty : NodeHeap α).Carries [] ⟨.empty, []⟩ where
  represents :=
    { sources := fun _ => rfl
      length_eq := rfl
      nodup := List.nodup_nil
      node := fun _ _ _ hx => nomatch hx
      tail := fun _ _ _ hx => nomatch hx
      covered := fun s r reader hreader => by
        rw [Hub.readerOf_eq_none_of_le (Nat.zero_le r)] at hreader
        cases hreader }
  held := fun _ hc => nomatch hc
  probed := fun _ _ hc => nomatch hc

/-- What changes only the hub, and lets no listener look at another cursor. -/
theorem of_hub (hm : m.Carries places v) {places' : List Cursor} (hextends : places <+: places')
    (hk : k.Represents places' h') (hprobe : ∀ l, h'.probe? l = v.hub.probe? l) :
    k.Carries places' { v with hub := h' } where
  represents := hk
  held := fun c hc => hextends.subset (hm.held c hc)
  probed := fun l c hc => hextends.subset (hm.probed l c ((hprobe l).symm.trans hc))

/-- Whatever happens can be done with the nodes. All that are there keep their places. -/
theorem happens (hm : m.Carries places v) (h : v.Happens e w) :
    ∃ k places', m.Leads k ∧ places <+: places' ∧ k.Carries places' w := by
  cases h with
  | @task task rest asked hagenda hasked =>
    have hrest : m.Represents places { v.hub with agenda := rest } :=
      hm.represents.congr (fun _ => rfl) fun _ _ => rfl
    cases task with
    | request q =>
      rw [Hub.step_request hagenda]
      refine ⟨m.grant q, places, .single (.grant q), List.prefix_rfl,
        hm.of_hub List.prefix_rfl ?_ fun l => ?_⟩
      · exact (hrest.grant q).congr (fun _ => rfl) fun _ _ => rfl
      · exact Hub.probe?_congr (h := v.hub) (Hub.listeners_grant { v.hub with agenda := rest } q) l
    | tell l items =>
      rw [Hub.step_tell hagenda]
      obtain ⟨others, read, hhears⟩ := Hub.hears_tell { v.hub with agenda := rest } l items
      obtain ⟨k, hleads, hk⟩ : ∃ k, m.Leads k ∧ k.Represents places read := by
        rcases hhears.looks with rfl | ⟨c, hprobe, rfl⟩
        · exact ⟨m, .refl, hrest⟩
        · obtain ⟨i, hi⟩ := List.getElem?_of_mem (hm.probed l c hprobe)
          exact ⟨_, .single (.head i), (hrest.head? hi).2⟩
      refine ⟨k, places, hleads, List.prefix_rfl, hm.of_hub List.prefix_rfl ?_ hhears.probe?_eq⟩
      refine hk.congr (fun s => ?_) fun s r => ?_
      · exact congrArg (fun outlets : Array (Outlet α) => outlets[s]?.map (·.source))
          hhears.outlets_eq
      · exact Hub.readerOf_congr hhears.readers_eq s r
  | call q hagenda =>
    exact ⟨m, places, .refl, List.prefix_rfl, hm.of_hub List.prefix_rfl
      (hm.represents.congr (fun _ => rfl) fun _ _ => rfl) fun _ => rfl⟩
  | read hc hread =>
    obtain ⟨k, places', hleads, hextends, hk⟩ := hm.represents.reading (hm.held _ hc) hread
    exact ⟨k, places', hleads, hextends, hm.of_hub hextends hk
      (Hub.probe?_congr hread.draws.listeners_eq)⟩
  | @tail c next hc hnext =>
    obtain ⟨i, hi⟩ := List.getElem?_of_mem (hm.held c hc)
    obtain ⟨j, places', -, hextends, hj, hk⟩ := hm.represents.tail? hi hnext
    have hprobe := Hub.probe?_congr (Hub.Reading.tail (h := v.hub) (c := c)).draws.listeners_eq
    have hcarries := hm.of_hub hextends hk hprobe
    refine ⟨_, places', .single (.tail i), hextends, hk, fun d hd => ?_, hcarries.probed⟩
    rcases List.mem_cons.1 hd with rfl | hd
    · exact List.mem_of_getElem? hj
    · exact hcarries.held d hd
  | @attach s c h hattach =>
    obtain ⟨i, k, hroot, hi, hk⟩ := hm.represents.root? hattach
    obtain ⟨source, -, hpure⟩ := Option.bind_eq_some_iff.1 hattach
    obtain ⟨-, rfl⟩ := Prod.mk.inj (Option.some.inj hpure)
    have hcarries := hm.of_hub (List.prefix_append places [c]) hk fun _ => rfl
    refine ⟨k, _, .single (.root hroot), List.prefix_append places [c], hk, fun d hd => ?_,
      hcarries.probed⟩
    rcases List.mem_cons.1 hd with rfl | hd
    · exact List.mem_of_getElem? hi
    · exact hcarries.held d hd
  | addSource hpulled =>
    exact ⟨_, places, .single (.addSource _), List.prefix_rfl, hm.of_hub List.prefix_rfl
      (hm.represents.addSource _) fun _ => rfl⟩
  | @listen t l hl =>
    refine ⟨m, places, .refl, List.prefix_rfl, ?_, hm.held, fun i c hc => ?_⟩
    · exact hm.represents.congr (v.hub.source?_listen t l) fun _ _ => rfl
    · rcases Hub.probe?_listen hc with hold | hnew
      · exact hm.probed i c hold
      · exact hm.held c (hl c hnew)
  | takeNotices =>
    exact ⟨m, places, .refl, List.prefix_rfl, hm.of_hub List.prefix_rfl
      (hm.represents.congr (fun _ => rfl) fun _ _ => rfl) fun _ => rfl⟩

theorem runs (hm : m.Carries places v) (h : v.Runs trace w) :
    ∃ k places', m.Leads k ∧ places <+: places' ∧ k.Carries places' w := by
  induction h with
  | refl => exact ⟨m, places, .refl, List.prefix_rfl, hm⟩
  | snoc _ hnext ih =>
    obtain ⟨k, places', hleads, hextends, hk⟩ := ih
    obtain ⟨k', places'', hleads', hextends', hk'⟩ := hk.happens hnext
    exact ⟨k', places'', hleads.trans hleads', hextends.trans hextends', hk'⟩

end Carries

end NodeHeap

/-- Whatever happens at a hub can be done with nodes instead of readers. Every cursor then has a
node that answers as the cursor does, and keeps it from then on. -/
theorem Venue.nodes_agree {v : Venue α} (h : v.Reachable) :
    ∃ m places, NodeHeap.empty.Leads m ∧ m.Represents places v.hub ∧
      (∀ c ∈ v.cursors, ∃ i : Nat, places[i]? = some c ∧ m.Answers i v.hub c) ∧
      ∀ trace w, v.Runs trace w → ∃ k places', m.Leads k ∧ places <+: places' ∧
        k.Represents places' w.hub ∧
        ∀ c ∈ w.cursors, ∃ i : Nat, places'[i]? = some c ∧ k.Answers i w.hub c := by
  obtain ⟨trace, hruns⟩ := h
  obtain ⟨m, places, hleads, -, hm⟩ := NodeHeap.Carries.of_empty.runs hruns
  refine ⟨m, places, hleads, hm.represents, fun c hc => hm.answers hc, fun later w hlater => ?_⟩
  obtain ⟨k, places', hleads', hextends, hk⟩ := hm.runs hlater
  exact ⟨k, places', hleads', hextends, hk.represents, fun c hc => hk.answers hc⟩

end DerivativeLexer
