import DerivativeLexer.Proofs.Stream.Events
import Mathlib.Data.List.Nodup

/-! # What listeners are told

Every push that is accepted, and every close, has each listener of the source told once. The tasks
for that go in front of the agenda, so a push made by a listener that is being told something is
heard by the listeners behind it before what they were still to be told. A listener that is never
kept waiting like this, such as the first one, hears everything in the order of the queue. -/

namespace DerivativeLexer

variable {α : Type} {s l : Nat}

/-- The source that a request is made to. -/
def SourceRequest.target : SourceRequest α → Nat
  | .push t _ => t
  | .close t => t

/-! ### Slices -/

namespace HubEvent

/-- What the listener `l` is told. -/
def told? (l : Nat) : HubEvent α → Option (List α)
  | .task (.tell k items) _ => if k = l then some items else none
  | _ => none

/-- What the listeners of the source `s` have to be told because of what happens: the items that
were pushed, or none if the source is closed. -/
def slice? (s : Nat) (closed : Bool) (e : HubEvent α) : Option (List α) :=
  match e.heeded with
  | some (.push t items) => if t = s ∧ closed = false then some items else none
  | some (.close t) => if t = s then some [] else none
  | none => none

end HubEvent

/-- Everything that the listener `l` was told, call by call. -/
def told (l : Nat) (trace : List (HubEvent α)) : List (List α) := trace.filterMap (·.told? l)

/-- The slices that the listeners of the source `s` have to be told, in the order in which they were
accepted. -/
def slices (s : Nat) (ledger : Ledger α) : List (HubEvent α) → List (List α)
  | [] => []
  | e :: trace => (e.slice? s ledger.closed).toList ++ slices s (ledger.after s e) trace

/-- What the tasks of an agenda will tell the listener `l`. -/
def pending (l : Nat) (agenda : List (HubTask α)) : List (List α) :=
  agenda.filterMap fun
    | .tell k items => if k = l then some items else none
    | .request _ => none

section

variable {ledger : Ledger α} {trace : List (HubEvent α)} {e : HubEvent α}

theorem told_snoc (l : Nat) (trace : List (HubEvent α)) (e : HubEvent α) :
    told l (trace ++ [e]) = told l trace ++ (e.told? l).toList := by
  rw [told, List.filterMap_append]
  cases h : e.told? l <;> simp [told, h]

theorem slices_snoc (s : Nat) (ledger : Ledger α) (trace : List (HubEvent α)) (e : HubEvent α) :
    slices s ledger (trace ++ [e]) =
      slices s ledger trace ++ (e.slice? s (ledger.along s trace).closed).toList := by
  induction trace generalizing ledger with
  | nil => simp [slices, Ledger.along]
  | cons first rest ih =>
    rw [List.cons_append, slices, slices, ih, List.append_assoc]
    rfl

theorem accepted_after (ledger : Ledger α) (s : Nat) (e : HubEvent α) :
    (ledger.after s e).accepted =
      ledger.accepted ++ (e.slice? s ledger.closed).toList.flatten := by
  unfold Ledger.after HubEvent.slice?
  cases e.heeded with
  | none => simp
  | some q =>
    cases q with
    | push t items => by_cases h : t = s ∧ ledger.closed = false <;> simp [Ledger.enter, h]
    | close t => by_cases h : t = s <;> simp [Ledger.enter, h]

/-- The slices of a run are what the source accepts in it. -/
theorem accepted_along (ledger : Ledger α) (s : Nat) (trace : List (HubEvent α)) :
    (ledger.along s trace).accepted = ledger.accepted ++ (slices s ledger trace).flatten := by
  induction trace generalizing ledger with
  | nil => simp [slices, Ledger.along]
  | cons e rest ih =>
    have hrest : ledger.along s (e :: rest) = (ledger.after s e).along s rest := rfl
    rw [hrest, ih, accepted_after, slices, List.flatten_append, List.append_assoc]

theorem HubEvent.exists_heeded_of_slice? {closed : Bool} {items : List α}
    (h : e.slice? s closed = some items) : ∃ q, e.heeded = some q ∧ q.target = s := by
  unfold slice? at h
  cases hheeded : e.heeded with
  | none =>
    rw [hheeded] at h
    cases h
  | some q =>
    rw [hheeded] at h
    cases q with
    | push t items => exact ⟨_, rfl, (Option.ite_none_right_eq_some.1 h).1.1⟩
    | close t => exact ⟨_, rfl, (Option.ite_none_right_eq_some.1 h).1⟩

theorem HubEvent.told?_of_slice? {closed : Bool} {items : List α}
    (h : e.slice? s closed = some items) : e.told? l = none := by
  obtain ⟨q, hheeded, -⟩ := exists_heeded_of_slice? h
  cases e with
  | task task asked =>
    cases task with
    | request q => rfl
    | tell k items => cases hheeded
  | _ => rfl

end

/-! ### Pending slices -/

theorem pending_append (l : Nat) (tasks rest : List (HubTask α)) :
    pending l (tasks ++ rest) = pending l tasks ++ pending l rest :=
  List.filterMap_append

theorem pending_requests (l : Nat) (asked : List (SourceRequest α)) :
    pending l (asked.map .request) = [] := by
  rw [pending, List.filterMap_map]
  exact List.filterMap_eq_nil_iff.2 fun _ _ => rfl

theorem pending_tellings_of_notMem {listeners : List Nat} (hl : l ∉ listeners) (items : List α) :
    pending l (listeners.map fun k => .tell k items) = [] := by
  rw [pending, List.filterMap_map]
  refine List.filterMap_eq_nil_iff.2 fun k hk => if_neg ?_
  rintro rfl
  exact hl hk

/-- A listener that is registered once is told once. -/
theorem pending_tellings {listeners : List Nat} (hnodup : listeners.Nodup) (hl : l ∈ listeners)
    (items : List α) : pending l (listeners.map fun k => .tell k items) = [items] := by
  obtain ⟨ahead, behind, rfl⟩ := List.append_of_mem hl
  rw [List.nodup_append, List.nodup_cons] at hnodup
  obtain ⟨-, ⟨hbehind, -⟩, hdisjoint⟩ := hnodup
  have hahead : l ∉ ahead := fun h => hdisjoint l h l List.mem_cons_self rfl
  have hself : pending l [HubTask.tell l items] = [items] := by simp [pending]
  rw [List.map_append, List.map_cons, pending_append, pending_tellings_of_notMem hahead,
    List.nil_append, ← List.singleton_append, pending_append, hself,
    pending_tellings_of_notMem hbehind]
  rfl

/-! ### Registered listeners -/

/-- A listener is registered once. -/
structure Hub.Wired (h : Hub α) : Prop where
  nodup : ∀ s, (h.listening s).Nodup
  lt_size : ∀ s, ∀ l ∈ h.listening s, l < h.listeners.size
  apart : ∀ s t, ∀ l ∈ h.listening s, l ∈ h.listening t → s = t

namespace Hub

variable {h h' : Hub α}

theorem Wired.of_eq (hwired : h.Wired) (hlistening : ∀ s, h'.listening s = h.listening s)
    (hsize : h'.listeners.size = h.listeners.size) : h'.Wired where
  nodup s := by
    rw [hlistening]
    exact hwired.nodup s
  lt_size s := by
    rw [hlistening, hsize]
    exact hwired.lt_size s
  apart s t := by
    rw [hlistening, hlistening]
    exact hwired.apart s t

theorem listening_grant (h : Hub α) (q : SourceRequest α) (s : Nat) :
    (h.grant q).listening s = h.listening s := by
  have hmodify (t : Nat) (f : Source α → Source α) :
      ((h.outlets.modify t fun o => { o with source := f o.source })[s]?.map
        (·.listeners)) = h.outlets[s]?.map (·.listeners) := by
    rw [Array.getElem?_modify]
    split
    · rw [Option.map_map]
      rfl
    · rfl
  cases q with
  | push t items =>
    rw [Hub.grant]
    split
    · rfl
    · split
      · rfl
      · exact congrArg (·.getD []) (hmodify t (·.push items))
  | close t => exact congrArg (·.getD []) (hmodify t .close)

theorem agenda_grant_cases (h : Hub α) (q : SourceRequest α) :
    (h.grant q).agenda = h.agenda ∨
      ∃ items, (h.grant q).agenda = h.tellings q.target items ++ h.agenda := by
  cases q with
  | push t items =>
    rw [Hub.grant]
    split
    · exact .inl rfl
    · split
      · exact .inl rfl
      · exact .inr ⟨items, rfl⟩
  | close t => exact .inr ⟨[], rfl⟩

theorem listeners_grant (h : Hub α) (q : SourceRequest α) :
    (h.grant q).listeners = h.listeners := by
  cases q with
  | push t items =>
    rw [Hub.grant]
    split
    · rfl
    · split <;> rfl
  | close t => rfl

theorem listening_listen (h : Hub α) (t : Nat) (k : Listener α) (s : Nat) :
    (h.listen t k).listening s =
      if t = s ∧ s < h.outlets.size then h.listening s ++ [h.listeners.size]
      else h.listening s := by
  unfold listen listening
  rw [Array.getElem?_modify]
  by_cases hs : s < h.outlets.size
  · rw [Array.getElem?_eq_getElem hs]
    split <;> simp [*]
  · rw [Array.getElem?_eq_none (Nat.le_of_not_lt hs)]
    simp [hs]

theorem listening_addSource (h : Hub α) (source : Source α) (s : Nat) :
    (h.addSource source).2.listening s = h.listening s := by
  unfold addSource listening
  rw [Array.getElem?_push]
  split
  case isTrue hs =>
    subst hs
    rw [Array.getElem?_eq_none (Nat.le_refl _)]
    rfl
  case isFalse => rfl

theorem Wired.listen (hwired : h.Wired) (t : Nat) (k : Listener α) : (h.listen t k).Wired := by
  have hsize : (h.listen t k).listeners.size = h.listeners.size + 1 := Array.size_push ..
  have hmem {s l : Nat} (hl : l ∈ (h.listen t k).listening s) :
      l ∈ h.listening s ∨ l = h.listeners.size ∧ s = t := by
    rw [listening_listen] at hl
    split at hl
    case isTrue hs =>
      rcases List.mem_append.1 hl with hl | hl
      · exact .inl hl
      · exact .inr ⟨List.mem_singleton.1 hl, hs.1.symm⟩
    case isFalse => exact .inl hl
  refine ⟨fun s => ?_, fun s l hl => ?_, fun s s' l hl hl' => ?_⟩
  · rw [listening_listen]
    split
    case isTrue =>
      refine List.nodup_append.2 ⟨hwired.nodup s, List.nodup_singleton _, fun a ha b hb => ?_⟩
      rw [List.mem_singleton.1 hb]
      exact Nat.ne_of_lt (hwired.lt_size s a ha)
    case isFalse => exact hwired.nodup s
  · rw [hsize]
    rcases hmem hl with hold | ⟨rfl, -⟩
    · exact Nat.lt_succ_of_lt (hwired.lt_size s l hold)
    · exact Nat.lt_succ_self _
  · rcases hmem hl with hold | ⟨rfl, rfl⟩ <;> rcases hmem hl' with hold' | ⟨heq, rfl⟩
    · exact hwired.apart s s' l hold hold'
    · exact absurd (hwired.lt_size s l hold) (heq ▸ Nat.lt_irrefl _)
    · exact absurd (hwired.lt_size s' _ hold') (Nat.lt_irrefl _)
    · rfl

theorem Wired.pending_tellings_of_ne (hwired : h.Wired) (hl : l ∈ h.listening s) {t : Nat}
    (ht : t ≠ s) (items : List α) : pending l (h.tellings t items) = [] := by
  rw [tellings_eq]
  exact pending_tellings_of_notMem (fun hmem => ht (hwired.apart t s l hmem hl)) items

theorem Wired.pending_tellings_self (hwired : h.Wired) (hl : l ∈ h.listening s) (items : List α) :
    pending l (h.tellings s items) = [items] := by
  rw [tellings_eq]
  exact pending_tellings (hwired.nodup s) hl items

/-- Of what a source accepts its listeners are told before anything else. -/
theorem Wired.pending_grant {source : Source α} (hwired : h.Wired)
    (hsource : h.source? s = some source) (hl : l ∈ h.listening s) (q : SourceRequest α)
    (asked : List (SourceRequest α)) :
    pending l (h.grant q).agenda =
      ((HubEvent.task (.request q) asked).slice? s source.closed).toList ++
        pending l h.agenda := by
  cases q with
  | push t items =>
    simp only [HubEvent.slice?, HubEvent.heeded]
    rw [Hub.grant]
    by_cases ht : t = s
    · subst ht
      rw [hsource]
      cases hclosed : source.closed with
      | true => simp [hclosed]
      | false => simp [hclosed, pending_append, hwired.pending_tellings_self hl]
    · rw [if_neg fun h => ht h.1]
      split
      · rfl
      · split
        · rfl
        · rw [pending_append, hwired.pending_tellings_of_ne hl ht]
          rfl
  | close t =>
    simp only [HubEvent.slice?, HubEvent.heeded]
    rw [Hub.grant, pending_append]
    by_cases ht : t = s
    · subst ht
      rw [hwired.pending_tellings_self hl, if_pos rfl]
      rfl
    · rw [hwired.pending_tellings_of_ne hl ht, if_neg ht]
      rfl

end Hub

namespace Venue

variable {v w : Venue α} {e : HubEvent α} {source : Source α}

/-- Only who listens is registered. -/
theorem Happens.registers (h : v.Happens e w) :
    ((∀ s, w.hub.listening s = v.hub.listening s) ∧
        w.hub.listeners.size = v.hub.listeners.size) ∨
      ∃ t k, w.hub = v.hub.listen t k := by
  cases h with
  | @task task rest asked hagenda hasked =>
    left
    cases task with
    | request q =>
      rw [Hub.step_request hagenda]
      exact ⟨Hub.listening_grant { v.hub with agenda := rest } q,
        congrArg Array.size (Hub.listeners_grant { v.hub with agenda := rest } q)⟩
    | tell k items =>
      rw [Hub.step_tell hagenda]
      obtain ⟨_, read, hhears⟩ := Hub.hears_tell { v.hub with agenda := rest } k items
      exact ⟨hhears.listening_eq, hhears.size_eq⟩
  | call q hagenda => exact .inl ⟨fun _ => rfl, rfl⟩
  | read hc hread =>
    exact .inl ⟨hread.draws.listening_eq, congrArg Array.size hread.draws.listeners_eq⟩
  | @tail c next hc hnext =>
    have hdraws : v.hub.Draws c (v.hub.tail c).2 := Hub.Reading.tail.draws
    exact .inl ⟨hdraws.listening_eq, congrArg Array.size hdraws.listeners_eq⟩
  | attach hattach =>
    obtain ⟨source, -, hpure⟩ := Option.bind_eq_some_iff.1 hattach
    obtain ⟨-, rfl⟩ := Prod.mk.inj (Option.some.inj hpure)
    exact .inl ⟨fun _ => rfl, rfl⟩
  | addSource hpulled => exact .inl ⟨v.hub.listening_addSource _, rfl⟩
  | listen t hl => exact .inr ⟨t, _, rfl⟩
  | takeNotices => exact .inl ⟨fun _ => rfl, rfl⟩

theorem Happens.wired (h : v.Happens e w) (hwired : v.hub.Wired) : w.hub.Wired := by
  rcases h.registers with ⟨hlistening, hsize⟩ | ⟨t, k, hlisten⟩
  · exact hwired.of_eq hlistening hsize
  · rw [hlisten]
    exact hwired.listen t k

/-- Listeners stay registered, in their order. -/
theorem Happens.listening_prefix (h : v.Happens e w) (s : Nat) :
    v.hub.listening s <+: w.hub.listening s := by
  rcases h.registers with ⟨hlistening, -⟩ | ⟨t, k, hlisten⟩
  · exact (hlistening s).symm ▸ List.prefix_rfl
  · rw [hlisten, Hub.listening_listen]
    split
    · exact List.prefix_append _ _
    · exact List.prefix_rfl

theorem Reachable.wired (h : v.Reachable) : v.hub.Wired := by
  refine h.induct ?_ fun _ hwired hnext => hnext.wired hwired
  have hnone (s : Nat) : (Hub.empty : Hub α).listening s = [] := by
    rw [Hub.listening, Hub.empty]
    rfl
  refine ⟨fun s => ?_, fun s l hl => ?_, fun s t l hl => ?_⟩
  · rw [hnone]
    exact List.nodup_nil
  · rw [hnone] at hl
    cases hl
  · rw [hnone] at hl
    cases hl

/-- What becomes of the agenda. -/
inductive Arranges (h : Hub α) : HubEvent α → List (HubTask α) → Prop
  | request {q : SourceRequest α} {rest : List (HubTask α)}
      (hagenda : h.agenda = .request q :: rest) :
      Arranges h (.task (.request q) []) ({ h with agenda := rest }.grant q).agenda
  | tell {k : Nat} {items : List α} {rest : List (HubTask α)}
      (asked others : List (SourceRequest α)) (hagenda : h.agenda = .tell k items :: rest) :
      Arranges h (.task (.tell k items) asked) (others.map .request ++ rest)
  | call (q : SourceRequest α) (hagenda : h.agenda = []) : Arranges h (.call q) [.request q]
  | idle {e : HubEvent α} (hheeded : e.heeded = none) (htold : ∀ l, e.told? l = none) :
      Arranges h e h.agenda

theorem Happens.arranges (h : v.Happens e w) : Arranges v.hub e w.hub.agenda := by
  cases h with
  | @task task rest asked hagenda hasked =>
    cases task with
    | request q =>
      have hnone : asked = [] := hasked.resolve_right fun ⟨_, _, h⟩ => nomatch h
      subst hnone
      rw [Hub.step_request hagenda]
      exact .request hagenda
    | tell k items =>
      rw [Hub.step_tell hagenda]
      obtain ⟨others, read, hhears⟩ := Hub.hears_tell { v.hub with agenda := rest } k items
      rw [hhears.agenda_eq, ← List.append_assoc, ← List.map_append]
      exact .tell asked (asked ++ others) hagenda
  | call q hagenda => exact .call q hagenda
  | read hc hread =>
    rw [hread.draws.agenda_eq]
    exact .idle rfl fun _ => rfl
  | @tail c next hc hnext =>
    have hdraws : v.hub.Draws c (v.hub.tail c).2 := Hub.Reading.tail.draws
    rw [hdraws.agenda_eq]
    exact .idle rfl fun _ => rfl
  | attach hattach =>
    obtain ⟨source, -, hpure⟩ := Option.bind_eq_some_iff.1 hattach
    obtain ⟨-, rfl⟩ := Prod.mk.inj (Option.some.inj hpure)
    exact .idle rfl fun _ => rfl
  | addSource => exact .idle rfl fun _ => rfl
  | listen => exact .idle rfl fun _ => rfl
  | takeNotices => exact .idle rfl fun _ => rfl

/-- What was told and what is to be told are counted together: what is added to them is what was
accepted, and it comes before everything else that is to be told. -/
theorem Happens.pending_eq (h : v.Happens e w) (hwired : v.hub.Wired)
    (hsource : v.hub.source? s = some source) (hl : l ∈ v.hub.listening s) :
    (e.told? l).toList ++ pending l w.hub.agenda =
      (e.slice? s source.closed).toList ++ pending l v.hub.agenda := by
  have harranges := h.arranges
  generalize w.hub.agenda = agenda at harranges
  cases harranges with
  | @request q rest hagenda =>
    have hwired' : { v.hub with agenda := rest }.Wired := hwired.of_eq (fun _ => rfl) rfl
    rw [hagenda, hwired'.pending_grant hsource hl q []]
    rfl
  | @tell k items rest asked others hagenda =>
    rw [hagenda, pending_append, pending_requests, List.nil_append]
    by_cases hk : k = l <;> simp [HubEvent.told?, HubEvent.slice?, HubEvent.heeded, pending, hk]
  | call q hagenda =>
    rw [hagenda]
    rfl
  | idle hheeded htold => simp [htold, HubEvent.slice?, hheeded]

/-! ### The first listener -/

/-- If the listener `l` is to be told anything, it is told next, and then has to be told nothing
more. -/
def Prompt (l : Nat) (agenda : List (HubTask α)) : Prop :=
  pending l agenda = [] ∨ ∃ items rest, agenda = .tell l items :: rest ∧ pending l rest = []

theorem Prompt.tail {task : HubTask α} {rest : List (HubTask α)}
    (hprompt : Prompt l (task :: rest)) : pending l rest = [] := by
  rcases hprompt with hnone | ⟨items, rest', hagenda, hrest⟩
  · rw [← List.singleton_append, pending_append] at hnone
    exact (List.append_eq_nil_iff.1 hnone).2
  · obtain ⟨-, rfl⟩ := List.cons.inj hagenda
    exact hrest

theorem Happens.prompt (h : v.Happens e w) (hwired : v.hub.Wired)
    (hfirst : (v.hub.listening s).head? = some l) (hprompt : Prompt l v.hub.agenda) :
    Prompt l w.hub.agenda := by
  have harranges := h.arranges
  generalize w.hub.agenda = agenda at harranges
  cases harranges with
  | @request q rest hagenda =>
    rw [hagenda] at hprompt
    have hrest := hprompt.tail
    rcases Hub.agenda_grant_cases { v.hub with agenda := rest } q with hsame | ⟨items, htold⟩
    · rw [hsame]
      exact .inl hrest
    · rw [htold]
      have hwired' : { v.hub with agenda := rest }.Wired := hwired.of_eq (fun _ => rfl) rfl
      by_cases hs : q.target = s
      · obtain ⟨behind, hbehind⟩ := List.head?_eq_some_iff.1 hfirst
        have hnodup := hwired.nodup s
        rw [hbehind, List.nodup_cons] at hnodup
        have htellings : { v.hub with agenda := rest }.tellings q.target items =
            .tell l items :: behind.map fun k => .tell k items := by
          rw [Hub.tellings_eq, hs]
          exact congrArg _ hbehind
        rw [htellings, List.cons_append]
        refine .inr ⟨items, _, rfl, ?_⟩
        rw [pending_append, hrest, pending_tellings_of_notMem hnodup.1, List.append_nil]
      · left
        have hl : l ∈ v.hub.listening s := List.mem_of_mem_head? hfirst
        rw [pending_append, hrest, hwired'.pending_tellings_of_ne hl hs, List.append_nil]
  | @tell k items rest asked others hagenda =>
    rw [hagenda] at hprompt
    left
    rw [pending_append, pending_requests, hprompt.tail, List.append_nil]
  | call q hagenda => exact .inl rfl
  | idle => exact hprompt

/-! ### A listener behind another -/

/-- Whenever the listener `k` is to be told something, the listener `l` is told it later, before
anything else that it is still to be told then. -/
def Follows (k l : Nat) : List (HubTask α) → Prop
  | [] => True
  | .request _ :: rest => Follows k l rest
  | .tell j items :: rest => (j = k → (pending l rest).head? = some items) ∧ Follows k l rest

section

variable {k : Nat} {rest : List (HubTask α)}

theorem Follows.requests (h : Follows k l rest) (asked : List (SourceRequest α)) :
    Follows k l (asked.map .request ++ rest) := by
  induction asked with
  | nil => exact h
  | cons q asked ih => exact ih

theorem Follows.tellings_of_notMem (h : Follows k l rest) {listeners : List Nat}
    (hk : k ∉ listeners) (items : List α) :
    Follows k l (listeners.map (fun j => .tell j items) ++ rest) := by
  induction listeners with
  | nil => exact h
  | cons j listeners ih =>
    rw [List.mem_cons, not_or] at hk
    exact ⟨fun hj => (hk.1 hj.symm).elim, ih hk.2⟩

theorem Follows.tellings (h : Follows k l rest) {listeners : List Nat} (hnodup : listeners.Nodup)
    (hbehind : [k, l].Sublist listeners) (items : List α) :
    Follows k l (listeners.map (fun j => .tell j items) ++ rest) := by
  induction listeners with
  | nil => cases hbehind
  | cons j listeners ih =>
    rw [List.nodup_cons] at hnodup
    cases hbehind with
    | cons _ hbehind =>
      refine ⟨?_, ih hnodup.2 hbehind⟩
      rintro rfl
      exact (hnodup.1 (hbehind.subset List.mem_cons_self)).elim
    | cons_cons _ hl =>
      have hpending : pending l (listeners.map (fun j => .tell j items) ++ rest) =
          items :: pending l rest := by
        rw [pending_append, pending_tellings hnodup.2 (List.singleton_sublist.1 hl)]
        rfl
      exact ⟨fun _ => congrArg List.head? hpending, h.tellings_of_notMem hnodup.1 items⟩

theorem Happens.follows (h : v.Happens e w) (hwired : v.hub.Wired)
    (hbehind : [k, l].Sublist (v.hub.listening s)) (hfollows : Follows k l v.hub.agenda) :
    Follows k l w.hub.agenda := by
  have harranges := h.arranges
  generalize w.hub.agenda = agenda at harranges
  cases harranges with
  | @request q rest hagenda =>
    rw [hagenda] at hfollows
    have hrest : Follows k l rest := hfollows
    rcases Hub.agenda_grant_cases { v.hub with agenda := rest } q with hsame | ⟨items, htold⟩
    · rw [hsame]
      exact hrest
    · rw [htold, Hub.tellings_eq]
      by_cases hs : q.target = s
      · subst hs
        exact hrest.tellings (hwired.nodup _) hbehind items
      · have hk : k ∈ v.hub.listening s := hbehind.subset List.mem_cons_self
        exact hrest.tellings_of_notMem (fun hk' => hs (hwired.apart _ _ k hk' hk)) items
  | tell asked others hagenda =>
    rw [hagenda] at hfollows
    exact Follows.requests hfollows.2 others
  | call q hagenda => exact trivial
  | idle => exact hfollows

/-- While the first of two listeners is told something, the second is still to be told it. -/
theorem Happens.head?_pending {items : List α} {asked : List (SourceRequest α)}
    (h : v.Happens (.task (.tell k items) asked) w) (hfollows : Follows k l v.hub.agenda) :
    (pending l w.hub.agenda).head? = some items := by
  have harranges := h.arranges
  generalize w.hub.agenda = agenda at harranges
  cases harranges with
  | tell asked others hagenda =>
    rw [hagenda] at hfollows
    rw [pending_append, pending_requests, List.nil_append]
    exact hfollows.1 rfl
  | idle _ htold =>
    have hnone := htold k
    rw [HubEvent.told?, if_pos rfl] at hnone
    cases hnone

end

/-! ### Runs -/

/-- The source `s` has accepted what is entered in the ledger. What was pulled of that meanwhile
comes first, and then what is queued. -/
def Records (v : Venue α) (s pulled : Nat) (ledger : Ledger α) : Prop :=
  ∃ source taken, v.hub.source? s = some source ∧ source.Records ledger taken ∧
    source.pulled = pulled + taken.length

theorem Happens.records {pulled : Nat} {ledger : Ledger α} (h : v.Happens e w)
    (hrecords : v.Records s pulled ledger) : w.Records s pulled (ledger.after s e) := by
  obtain ⟨source, taken, hsource, hrecords, hpulled⟩ := hrecords
  have haffects := h.affects hsource
  unfold Ledger.after
  generalize e.heeded = heeded at haffects
  cases haffects with
  | heeds q hsource' _ =>
    exact ⟨_, taken, hsource', hrecords.grant s q, (source.pulled_grant s q).trans hpulled⟩
  | spares hsource' _ => exact ⟨source, taken, hsource', hrecords, hpulled⟩
  | @draws _ n _ _ hn _ hsource' _ _ =>
    refine ⟨_, _, hsource', hrecords.draw n, ?_⟩
    rw [List.length_append, List.length_take_of_le hn, ← Nat.add_assoc, ← hpulled]
    rfl
  | attaches _ hsource' _ _ => exact ⟨source, taken, hsource', hrecords, hpulled⟩

/-- What happens one after the other when nothing is asked of the source `s` while the listener `l`
is still to be told of an earlier request: none of the listeners before it asks for something. -/
inductive RunsCalmly (v : Venue α) (s l : Nat) : List (HubEvent α) → Venue α → Prop
  | refl : RunsCalmly v s l [] v
  | snoc {trace : List (HubEvent α)} {w w' : Venue α} {e : HubEvent α}
      (h : RunsCalmly v s l trace w) (hnext : w.Happens e w')
      (hcalm : ∀ q, e.heeded = some q → q.target = s → pending l w.hub.agenda = []) :
      RunsCalmly v s l (trace ++ [e]) w'

variable {start : Venue α} {trace : List (HubEvent α)}

theorem RunsCalmly.runs (h : start.RunsCalmly s l trace v) : start.Runs trace v := by
  induction h with
  | refl => exact .refl
  | snoc _ hnext _ ih => exact .snoc ih hnext

/-- What holds after a run in which the listener `l` was registered from the beginning. -/
structure Tells (start : Venue α) (source : Source α) (s l : Nat) (trace : List (HubEvent α))
    (v : Venue α) : Prop where
  reachable : v.Reachable
  listening : start.hub.listening s <+: v.hub.listening s
  records : v.Records s source.pulled ((Ledger.of source).along s trace)
  perm : (told l trace ++ pending l v.hub.agenda).Perm (slices s (.of source) trace)

theorem Tells.refl (hstart : start.Reachable) (hrest : start.hub.agenda = [])
    (hsource : start.hub.source? s = some source) : start.Tells source s l [] start where
  reachable := hstart
  listening := List.prefix_rfl
  records := ⟨source, [], hsource, ⟨rfl, rfl⟩, rfl⟩
  perm := by
    rw [hrest]
    exact .refl _

/-- What is told and what is to be told after something happened. -/
theorem Tells.pending_eq (h : start.Tells source s l trace v) (hl : l ∈ start.hub.listening s)
    (hnext : v.Happens e w) :
    (e.told? l).toList ++ pending l w.hub.agenda =
      (e.slice? s ((Ledger.of source).along s trace).closed).toList ++ pending l v.hub.agenda := by
  obtain ⟨source', taken, hsource', hrecords, -⟩ := h.records
  rw [← hrecords.closed]
  exact hnext.pending_eq h.reachable.wired hsource' (h.listening.subset hl)

theorem Tells.snoc (h : start.Tells source s l trace v) (hl : l ∈ start.hub.listening s)
    (hnext : v.Happens e w) : start.Tells source s l (trace ++ [e]) w where
  reachable := h.reachable.runs (.one hnext)
  listening := h.listening.trans (hnext.listening_prefix s)
  records := by
    rw [Ledger.along_snoc]
    exact hnext.records h.records
  perm := by
    rw [told_snoc, slices_snoc, List.append_assoc, h.pending_eq hl hnext]
    refine List.Perm.trans ?_ (h.perm.append_right _)
    rw [List.append_assoc]
    exact List.perm_append_comm.append_left _

theorem Runs.tells (hstart : start.Reachable) (hrest : start.hub.agenda = [])
    (hsource : start.hub.source? s = some source) (hl : l ∈ start.hub.listening s)
    (hruns : start.Runs trace v) : start.Tells source s l trace v := by
  induction hruns with
  | refl => exact .refl hstart hrest hsource
  | snoc _ hnext ih => exact ih.snoc hl hnext

theorem RunsCalmly.in_order (hcalm : start.RunsCalmly s l trace v) (hstart : start.Reachable)
    (hrest : start.hub.agenda = []) (hsource : start.hub.source? s = some source)
    (hl : l ∈ start.hub.listening s) :
    told l trace ++ pending l v.hub.agenda = slices s (.of source) trace := by
  induction hcalm with
  | refl =>
    rw [hrest]
    rfl
  | snoc hbefore hnext hquiet ih =>
    have htells := hbefore.runs.tells hstart hrest hsource hl
    rw [told_snoc, slices_snoc, List.append_assoc, htells.pending_eq hl hnext, ← ih]
    generalize hslice : HubEvent.slice? s _ _ = slice
    cases slice with
    | none => simp
    | some items =>
      obtain ⟨q, hheeded, htarget⟩ := HubEvent.exists_heeded_of_slice? hslice
      simp [hquiet q hheeded htarget]

theorem Happens.pending_of_heeded {q : SourceRequest α} (h : v.Happens e w)
    (hheeded : e.heeded = some q) (hprompt : Prompt l v.hub.agenda) :
    pending l v.hub.agenda = [] := by
  have harranges := h.arranges
  generalize w.hub.agenda = agenda at harranges
  cases harranges with
  | request hagenda =>
    rw [hagenda] at hprompt ⊢
    exact hprompt.tail
  | tell => cases hheeded
  | call => cases hheeded
  | idle hnone => exact nomatch hnone.symm.trans hheeded

/-- The first listener is never kept waiting. -/
theorem Runs.calm (hruns : start.Runs trace v) (hstart : start.Reachable)
    (hrest : start.hub.agenda = []) (hsource : start.hub.source? s = some source)
    (hfirst : (start.hub.listening s).head? = some l) :
    start.RunsCalmly s l trace v ∧ Prompt l v.hub.agenda := by
  induction hruns with
  | refl =>
    refine ⟨.refl, .inl ?_⟩
    rw [hrest]
    rfl
  | @snoc before w w' e hbefore hnext ih =>
    obtain ⟨hcalm, hprompt⟩ := ih
    have htells := hbefore.tells hstart hrest hsource (List.mem_of_mem_head? hfirst)
    refine ⟨.snoc hcalm hnext fun q hheeded _ => hnext.pending_of_heeded hheeded hprompt, ?_⟩
    refine hnext.prompt (s := s) htells.reachable.wired ?_ hprompt
    obtain ⟨behind, hbehind⟩ := List.head?_eq_some_iff.1 hfirst
    obtain ⟨more, hmore⟩ := htells.listening
    rw [← hmore, hbehind]
    rfl

/-- What the listener `l` of the source `s` hears of a request that is carried out while it is
still to be told of earlier ones. -/
structure Nests (start : Venue α) (source : Source α) (s l : Nat) : Prop where
  /-- While a listener before it is told something, it is still to be told that. -/
  behind : ∀ {before : List (HubEvent α)} {w w' : Venue α} {k : Nat} {outer : List α}
    {asked : List (SourceRequest α)}, [k, l].Sublist (start.hub.listening s) →
      start.Runs before w → w.Happens (.task (.tell k outer) asked) w' →
        (pending l w'.hub.agenda).head? = some outer
  /-- The slice of a request comes before all that is outstanding then. -/
  ahead : ∀ {before : List (HubEvent α)} {w w' : Venue α} {e : HubEvent α} {inner : List α},
    start.Runs before w → w.Happens e w' →
      e.slice? s ((Ledger.of source).along s before).closed = some inner →
        pending l w'.hub.agenda = inner :: pending l w.hub.agenda
  /-- What is outstanding is told in its order, whatever comes in between. -/
  in_order : ∀ {before after : List (HubEvent α)} {w v : Venue α}, start.Runs before w →
    w.Runs after v → (pending l w.hub.agenda).Sublist (told l after ++ pending l v.hub.agenda)

theorem Runs.follows {k : Nat} (hruns : start.Runs trace v) (hstart : start.Reachable)
    (hrest : start.hub.agenda = []) (hsource : start.hub.source? s = some source)
    (hbehind : [k, l].Sublist (start.hub.listening s)) : Follows k l v.hub.agenda := by
  induction hruns with
  | refl =>
    rw [hrest]
    trivial
  | snoc hbefore hnext ih =>
    have hl : l ∈ start.hub.listening s :=
      hbehind.subset (List.mem_cons_of_mem k List.mem_cons_self)
    have htells := hbefore.tells hstart hrest hsource hl
    exact hnext.follows htells.reachable.wired (hbehind.trans htells.listening.sublist) ih

theorem Tells.outstanding {after : List (HubEvent α)} (h : start.Tells source s l trace w)
    (hl : l ∈ start.hub.listening s) (hruns : w.Runs after v) :
    start.Tells source s l (trace ++ after) v ∧
      (pending l w.hub.agenda).Sublist (told l after ++ pending l v.hub.agenda) := by
  induction hruns with
  | refl =>
    rw [List.append_nil]
    exact ⟨h, List.Sublist.refl _⟩
  | snoc _ hnext ih =>
    obtain ⟨htells, hsublist⟩ := ih
    rw [← List.append_assoc]
    refine ⟨htells.snoc hl hnext, hsublist.trans ?_⟩
    rw [told_snoc, List.append_assoc, htells.pending_eq hl hnext]
    exact (List.sublist_append_right _ _).append_left _

theorem nests (hstart : start.Reachable) (hrest : start.hub.agenda = [])
    (hsource : start.hub.source? s = some source) (hl : l ∈ start.hub.listening s) :
    start.Nests source s l where
  behind hbehind hruns hnext :=
    hnext.head?_pending (hruns.follows hstart hrest hsource hbehind)
  ahead hruns hnext hslice := by
    have hpending := (hruns.tells hstart hrest hsource hl).pending_eq hl hnext
    rw [HubEvent.told?_of_slice? hslice, hslice] at hpending
    exact hpending
  in_order hbefore hafter := ((hbefore.tells hstart hrest hsource hl).outstanding hl hafter).2

/-- What a listener is told, if it was registered before the run began. Each slice that the source
accepts, and the empty one for each close, is told once, after what is left to be done at the
latest. If none of the listeners before it asks anything of the source while it is being told
something, a listener is told the slices in the order in which they were accepted; and the first
listener always is. The slices together are what the source has queued. A listener behind one that
asks for something while it is told something hears of that first, and then what the other was
told. -/
theorem slices_told (hstart : start.Reachable) (hrest : start.hub.agenda = [])
    (hsource : start.hub.source? s = some source) (hl : l ∈ start.hub.listening s)
    (hruns : start.Runs trace v) :
    (∃ source' taken, v.hub.source? s = some source' ∧
      source.queue ++ (slices s (.of source) trace).flatten = taken ++ source'.queue ∧
      source'.pulled = source.pulled + taken.length) ∧
    (told l trace ++ pending l v.hub.agenda).Perm (slices s (.of source) trace) ∧
    (start.RunsCalmly s l trace v →
      told l trace ++ pending l v.hub.agenda = slices s (.of source) trace) ∧
    ((start.hub.listening s).head? = some l → start.RunsCalmly s l trace v) ∧
    start.Nests source s l := by
  have htells := hruns.tells hstart hrest hsource hl
  obtain ⟨source', taken, hsource', hrecords, hpulled⟩ := htells.records
  have haccepted := hrecords.accepted
  rw [accepted_along] at haccepted
  exact ⟨⟨source', taken, hsource', haccepted, hpulled⟩, htells.perm,
    fun hcalm => hcalm.in_order hstart hrest hsource hl,
    fun hfirst => (hruns.calm hstart hrest hsource hfirst).1, nests hstart hrest hsource hl⟩

/-! ### A listener that answers -/

/-- Of two listeners the first pushes something when it is told something for the first time. -/
def answering : Venue Char where
  hub := ((Hub.empty.addSource .fresh).2.listen 0 ⟨"first", 1, [.push 0 ['b']], none⟩).listen 0
    ⟨"second", 0, [], none⟩
  cursors := []

theorem reachable_answering : answering.Reachable :=
  ⟨_, ((Runs.refl.snoc (.addSource rfl)).snoc (.listen 0 (by simp))).snoc (.listen 0 (by simp))⟩

def answeringTrace : List (HubEvent Char) :=
  .call (.push 0 ['a']) :: (answering.hub.performed (.push 0 ['a'])).map (.task · [])

theorem runs_answering :
    answering.Runs answeringTrace { answering with hub := answering.hub.perform (.push 0 ['a']) } :=
  runs_perform rfl _

/-- Both listeners are to be told of the push. -/
def pushed : Venue Char :=
  { answering with hub := { answering.hub with agenda := [.request (.push 0 ['a'])] }.step }

/-- The first listener was told something and asks for its own push. -/
def interrupting : Venue Char := { pushed with hub := pushed.hub.step }

/-- The first listener is told of its own push after what it answers, the second one before it. -/
theorem slices_told_sample :
    slices 0 (.of .fresh) answeringTrace = [['a'], ['b']] ∧
      told 0 answeringTrace = [['a'], ['b']] ∧ told 1 answeringTrace = [['b'], ['a']] ∧
      (told 1 answeringTrace).Perm (slices 0 (.of .fresh) answeringTrace) ∧
      (pending 1 interrupting.hub.agenda).head? = some ['a'] ∧
      pending 1 interrupting.hub.step.agenda = ['b'] :: pending 1 interrupting.hub.agenda ∧
      (pending 1 interrupting.hub.step.agenda).Sublist
        (told 1 ((interrupting.hub.step.worked 9).map (.task · []))) := by
  obtain ⟨-, -, hcalm, hfirst, -⟩ := slices_told (l := 0) reachable_answering rfl rfl
    (by decide : 0 ∈ answering.hub.listening 0) runs_answering
  obtain ⟨-, hperm, -, -, hnests⟩ := slices_told (l := 1) reachable_answering rfl rfl
    (by decide : 1 ∈ answering.hub.listening 0) runs_answering
  have hfirst := hcalm (hfirst rfl)
  have hrest : { answering with hub := answering.hub.perform (.push 0 ['a']) }.hub.agenda = [] := by
    decide
  rw [hrest] at hfirst hperm
  have hslices : slices 0 (.of .fresh) answeringTrace = [['a'], ['b']] := by decide
  have htold : told 0 answeringTrace ++ [] = [['a'], ['b']] := hfirst.trans hslices
  rw [List.append_nil] at htold
  have hperm : (told 1 answeringTrace ++ []).Perm (slices 0 (.of .fresh) answeringTrace) := hperm
  rw [List.append_nil] at hperm
  -- up to the answer of the first listener, and then the rest of the run
  have hpushed : answering.Runs [.call (.push 0 ['a']), .task (.request (.push 0 ['a'])) []]
      pushed := (Runs.refl.snoc (.call _ rfl)).snoc (.task rfl (.inl rfl))
  have hasks : pushed.Happens (.task (.tell 0 ['a']) []) interrupting := .task rfl (.inl rfl)
  have hanswers : interrupting.Happens (.task (.request (.push 0 ['b'])) [])
      { interrupting with hub := interrupting.hub.step } := .task rfl (.inl rfl)
  have hbefore := hpushed.snoc hasks
  have hleft := hnests.in_order (hbefore.snoc hanswers) (runs_settleWith _ 9)
  rw [show (interrupting.hub.step.settleWith 9).agenda = [] by decide] at hleft
  exact ⟨hslices, htold, by decide, hperm, hnests.behind (by decide) hpushed hasks,
    hnests.ahead hbefore hanswers (by decide), by simpa [pending] using hleft⟩

/-- It is not so that every listener that was there before the first push is told the slices in the
order in which they were accepted, if listeners may push to the source themselves. -/
theorem slices_not_told_in_order :
    ¬∀ (start v : Venue Char) (s l : Nat) (trace : List (HubEvent Char)), start.Reachable →
      start.hub.agenda = [] → start.hub.source? s = some .fresh → l ∈ start.hub.listening s →
        start.Runs trace v → v.hub.agenda = [] →
          (told l trace).flatten = (slices s (.of .fresh) trace).flatten := by
  intro h
  have hflatten := h answering _ 0 1 answeringTrace reachable_answering rfl rfl (by decide)
    runs_answering (by decide)
  exact absurd hflatten (by decide)

end Venue

end DerivativeLexer
