import DerivativeLexer.Proofs.Language.Lookup
import Mathlib.Data.List.Dedup

/-! # What the memory of unions has counted and what it still knows

The unions that a computation needs are looked up one after the other, from within the recursion of
derivatives and the simplifications of the combinators. Here every computation is reduced to the
list of the unions that it evaluates, in their order. Of such lists the accounts of the memory are
read off: each evaluation is counted once, the entries stand in the order in which they were last
looked up, and as long as the capacity stays the same an entry is known for exactly so long as fewer
other unions were looked up since than there is room for. -/

namespace DerivativeLexer

/-! ### Computations on two states -/

section Agree

variable {σ ρ α β : Type} {R : σ → ρ → Prop}

/-- Started where `R` holds, both computations yield the same, and `R` holds afterwards. -/
def Agree (R : σ → ρ → Prop) (p : StateM σ α) (q : StateM ρ α) : Prop :=
  ∀ s t, R s t → (p.run s).1 = (q.run t).1 ∧ R (p.run s).2 (q.run t).2

namespace Agree

theorem pure (a : α) : Agree R (pure a) (pure a) := fun _ _ hst => ⟨rfl, hst⟩

theorem bind {p : StateM σ α} {q : StateM ρ α} {f : α → StateM σ β} {g : α → StateM ρ β}
    (hpq : Agree R p q) (hfg : ∀ a, Agree R (f a) (g a)) : Agree R (p >>= f) (q >>= g) := by
  intro s t hst
  obtain ⟨hvalue, hstate⟩ := hpq s t hst
  have hp : (p >>= f).run s = (f (p.run s).1).run (p.run s).2 := rfl
  have hq : (q >>= g).run t = (g (q.run t).1).run (q.run t).2 := rfl
  rw [hp, hq, hvalue]
  exact hfg _ _ _ hstate

theorem ite {c : Prop} [Decidable c] {p p' : StateM σ α} {q q' : StateM ρ α}
    (hthen : Agree R p q) (helse : Agree R p' q') :
    Agree R (if c then p else p') (if c then q else q') := by
  split
  · exact hthen
  · exact helse

variable {union : Language → Language → StateM σ Language}
  {union' : Language → Language → StateM ρ Language}
  (hunion : ∀ a b, Agree R (union a b) (union' a b))

include hunion

theorem optionalVia (a : Language) : Agree R (a.optionalVia union) (a.optionalVia union') :=
  .ite (.pure a) (.ite (.pure _) (hunion _ a))

theorem derivePowerVia (a : Language) {d : StateM σ Language} {d' : StateM ρ Language}
    (hd : Agree R d d') (n : Nat) :
    Agree R (a.derivePowerVia union d n) (a.derivePowerVia union' d' n) := by
  induction n using Nat.twoStepInduction with
  | zero => exact .pure _
  | one => exact hd
  | more n _ ih =>
    rw [Language.derivePowerVia, Language.derivePowerVia]
    refine .ite (.pure _) (hd.bind fun first => ?_)
    exact .ite (ih.bind fun later => hunion _ later) (.pure _)

theorem deriveVia (x : Symbol) (a : Language) :
    Agree R (a.deriveVia union x) (a.deriveVia union' x) := by
  induction a with
  | concat a b iha ihb =>
    exact iha.bind fun _ => .ite (ihb.bind fun later => hunion _ later) (.pure _)
  | union a b iha ihb => exact iha.bind fun left => ihb.bind fun right => hunion left right
  | star a ih => exact ih.bind fun _ => .pure _
  | power a n ih => exact derivePowerVia hunion a ih n
  | _ => exact .pure _

theorem buildVia (e : Expression) : Agree R (e.buildVia union) (e.buildVia union') := by
  induction e with
  | followedBy a b iha ihb => exact iha.bind fun _ => ihb.bind fun _ => .pure _
  | or a b iha ihb => exact iha.bind fun left => ihb.bind fun right => hunion left right
  | zeroOrMore a ih => exact ih.bind fun _ => .pure _
  | oneOrMore a ih => exact ih.bind fun _ => .pure _
  | optional a ih => exact ih.bind fun inner => optionalVia hunion inner
  | replicate a n ih => exact ih.bind fun _ => .pure _
  | derive x a ih => exact ih.bind fun inner => deriveVia hunion x inner
  | _ => exact .pure _

end Agree

end Agree

/-! ### The unions that are evaluated -/

/-- A union that is built and noted behind those before it. -/
def Language.orNoted (a b : Language) : StateM (List UnionKey) Language := fun noted =>
  (a.or b, noted ++ [(a, b)])

namespace UnionCache

/-- What evaluates unions. -/
inductive Work where
  | or (a b : Language)
  | optional (a : Language)
  | derive (x : Symbol) (a : Language)
  | build (e : Expression)

def Work.via {σ : Type} (union : Language → Language → StateM σ Language) : Work → StateM σ Language
  | .or a b => union a b
  | .optional a => a.optionalVia union
  | .derive x a => a.deriveVia union x
  | .build e => e.buildVia union

theorem Work.agree {σ ρ : Type} {R : σ → ρ → Prop}
    {union : Language → Language → StateM σ Language}
    {union' : Language → Language → StateM ρ Language}
    (hunion : ∀ a b, Agree R (union a b) (union' a b)) (w : Work) :
    Agree R (w.via union) (w.via union') := by
  cases w with
  | or a b => exact hunion a b
  | optional a => exact .optionalVia hunion a
  | derive x a => exact .deriveVia hunion x a
  | build e => exact .buildVia hunion e

/-- The computation with its unions looked up. -/
def Work.cached : Work → Cached Language
  | .or a b => a.orCached b
  | .optional a => a.optionalCached
  | .derive x a => a.deriveCached x
  | .build e => e.buildVia Language.orCached

theorem Work.via_orCached (w : Work) : w.via Language.orCached = w.cached := by
  cases w with
  | derive x a => exact (Language.deriveCached_eq x a).symm
  | _ => rfl

/-- The unions that are evaluated on the way, in their order. -/
def Work.unions (w : Work) : List UnionKey := ((w.via Language.orNoted).run []).2

inductive Step where
  | work (w : Work)
  | clear
  | resize (n : Nat) (h : 0 < n)

def step (c : UnionCache) : Step → UnionCache
  | .work w => (w.cached.run c).2
  | .clear => c.clear
  | .resize n h => c.resize n h

/-- How many unions the step evaluates, whether they are remembered or not. -/
def Step.evaluations : Step → Nat
  | .work w => w.unions.length
  | .clear => 0
  | .resize _ _ => 0

def Step.uses : Step → List Use
  | .work w => w.unions.map fun key => .lookUp key.1 key.2
  | .clear => [.clear]
  | .resize n h => [.resize n h]

/-! ### The log -/

/-- Whether the use is a look-up that is answered from the memory. -/
def answers (c : UnionCache) (u : Use) : Bool := decide (c.hits < (c.use u).hits)

/-- A memory with everything that was done with it so far, and what of that it answered. -/
structure Logged where
  cache : UnionCache
  log : List (Use × Bool)

namespace Logged

def fresh : Logged := ⟨.fresh, []⟩

def use (s : Logged) (u : Use) : Logged where
  cache := s.cache.use u
  log := s.log ++ [(u, s.cache.answers u)]

def useAll (s : Logged) (us : List Use) : Logged := us.foldl use s

end Logged

/-- A look-up that is logged. -/
def orLogged (a b : Language) : StateM Logged Language := fun s =>
  (((a.orCached b).run s.cache).1, s.use (.lookUp a b))

namespace Logged

def step (s : Logged) : Step → Logged
  | .work w => ((w.via orLogged).run s).2
  | .clear => s.use .clear
  | .resize n h => s.use (.resize n h)

variable {s : Logged}

theorem useAll_append (us vs : List Use) : s.useAll (us ++ vs) = (s.useAll us).useAll vs :=
  List.foldl_append

theorem cache_useAll (us : List Use) : (s.useAll us).cache = s.cache.useAll us := by
  induction us generalizing s with
  | nil => rfl
  | cons u rest ih => exact ih

/-- The log keeps what was done, and of each what it was worth at that time. -/
theorem log_useAll (us : List Use) : (s.useAll us).log.map (·.1) = s.log.map (·.1) ++ us := by
  induction us generalizing s with
  | nil => exact (List.append_nil _).symm
  | cons u rest ih =>
    have hone : (s.use u).log.map (·.1) = s.log.map (·.1) ++ [u] := List.map_append
    exact ih.trans (by rw [hone, List.append_assoc, List.singleton_append])

theorem answered_of_log {us : List Use} {past later : List (Use × Bool)} {u : Use} {hit : Bool}
    (hlog : (fresh.useAll us).log = past ++ (u, hit) :: later) :
    hit = (UnionCache.fresh.useAll (past.map (·.1))).answers u := by
  induction us using List.reverseRecOn generalizing later with
  | nil => simp [useAll, fresh] at hlog
  | append_singleton us v ih =>
    have hsplit : (fresh.useAll (us ++ [v])).log =
        (fresh.useAll us).log ++ [(v, (fresh.useAll us).cache.answers v)] := by
      rw [useAll_append]
      rfl
    rw [hsplit] at hlog
    rcases List.eq_nil_or_concat' later with rfl | ⟨rest, last, rfl⟩
    · obtain ⟨hpast, hlast⟩ := List.append_inj' hlog rfl
      have huses : us = past.map (·.1) := by
        rw [← hpast, log_useAll]
        rfl
      have hcache : (fresh.useAll us).cache = UnionCache.fresh.useAll (past.map (·.1)) := by
        rw [cache_useAll, huses]
        rfl
      rw [hcache] at hlast
      obtain ⟨rfl, hhit⟩ := Prod.mk.inj (List.cons.inj hlast).1
      exact hhit.symm
    · rw [← List.cons_append, ← List.append_assoc] at hlog
      exact ih (List.append_inj' hlog rfl).1

/-- What is logged is what happens to the memory. -/
theorem cache_step (st : Step) : (s.step st).cache = s.cache.step st := by
  cases st with
  | work w =>
    have hagree : Agree (fun s c => s.cache = c) (w.via orLogged) (w.via Language.orCached) := by
      refine w.agree ?_
      rintro a b s c rfl
      exact ⟨rfl, rfl⟩
    rw [Work.via_orCached] at hagree
    exact (hagree s s.cache rfl).2
  | clear => rfl
  | resize n hn => rfl

/-- The memory is as it was, but for the look-ups that were noted since. -/
def Noted (s now : Logged) (noted : List UnionKey) : Prop :=
  now = s.useAll (noted.map fun key => .lookUp key.1 key.2)

theorem agree_orNoted (h : s.cache.Sound) (a b : Language) :
    Agree (Noted s) (orLogged a b) (a.orNoted b) := by
  intro now noted hnow
  rw [Noted] at hnow
  subst hnow
  have hsound : (s.useAll (noted.map fun key => .lookUp key.1 key.2)).cache.Sound := by
    rw [cache_useAll]
    exact h.useAll _
  refine ⟨(a.yields_orCached b _ hsound).1, ?_⟩
  have hnext : (noted ++ [(a, b)]).map (fun key => Use.lookUp key.1 key.2) =
      noted.map (fun key => .lookUp key.1 key.2) ++ [.lookUp a b] := List.map_append
  rw [Noted]
  exact ((congrArg s.useAll hnext).trans (useAll_append _ _)).symm

/-- To the memory a computation is the list of the unions that it evaluates. -/
theorem step_eq (h : s.cache.Sound) (st : Step) : s.step st = s.useAll st.uses := by
  cases st with
  | work w => exact (w.agree (agree_orNoted h) s [] rfl).2
  | clear => rfl
  | resize n hn => rfl

theorem foldl_step_eq (h : s.cache.Sound) (steps : List Step) :
    steps.foldl step s = s.useAll (steps.flatMap Step.uses) := by
  induction steps generalizing s with
  | nil => rfl
  | cons st rest ih =>
    have hsound : (s.useAll st.uses).cache.Sound := by
      rw [cache_useAll]
      exact h.useAll _
    rw [List.foldl_cons, List.flatMap_cons, useAll_append, step_eq h, ih hsound]

theorem cache_foldl_step (steps : List Step) :
    (steps.foldl step s).cache = steps.foldl UnionCache.step s.cache := by
  induction steps generalizing s with
  | nil => rfl
  | cons st rest ih => rw [List.foldl_cons, List.foldl_cons, ih, cache_step]

end Logged

/-! ### One look-up -/

variable {c : UnionCache} {key : UnionKey} {n : Nat}

theorem useAll_append (us vs : List Use) : c.useAll (us ++ vs) = (c.useAll us).useAll vs :=
  List.foldl_append

theorem mem_keys_iff : key ∈ c.keys ↔ (c.find? key).isSome = true := by
  simp [keys, find?, List.find?_isSome]

theorem keys_without : (c.without key).map (·.1) = c.keys.filter (· != key) := by
  rw [without, keys, List.filter_map]
  rfl

/-- The union that was looked up stands first; what no longer fits is dropped. -/
theorem keys_lookUp (h : c.Sound) (a b : Language) :
    (c.use (.lookUp a b)).keys =
      ((a, b) :: c.keys.filter (· != (a, b))).take c.capacity := by
  cases hfind : c.find? (a, b) with
  | some value =>
    have huse : c.use (.lookUp a b) = c.refresh (a, b) value := by
      simp only [use, StateT.run, Language.orCached, hfind]
    have hkeys : (c.refresh (a, b) value).keys = (a, b) :: c.keys.filter (· != (a, b)) := by
      rw [← keys_without]
      rfl
    have hfits : ((a, b) :: c.keys.filter (· != (a, b))).length ≤ c.capacity := by
      rw [← hkeys, keys, List.length_map]
      exact (h.refresh hfind).size_le
    rw [huse, hkeys, List.take_of_length_le hfits]
  | none =>
    have huse : c.use (.lookUp a b) = c.store (a, b) (a.or b) := by
      simp only [use, StateT.run, Language.orCached, hfind]
    rw [huse, ← keys_without, without_of_find?_eq_none hfind, keys, store, List.map_take]
    rfl

theorem keys_resize (hn : 0 < n) : (c.use (.resize n hn)).keys = c.keys.take n := List.map_take

theorem hits_lookUp (a b : Language) :
    c.hits < (c.use (.lookUp a b)).hits ↔ (a, b) ∈ c.keys := by
  rw [mem_keys_iff]
  cases hfind : c.find? (a, b) with
  | some value => simp [use, StateT.run, Language.orCached, hfind, refresh]
  | none => simp [use, StateT.run, Language.orCached, hfind, store]

theorem lookups_lookUp (a b : Language) : (c.use (.lookUp a b)).lookups = c.lookups + 1 := by
  cases hfind : c.find? (a, b) with
  | some value =>
    simp only [use, StateT.run, Language.orCached, hfind, refresh, lookups]
    omega
  | none =>
    simp only [use, StateT.run, Language.orCached, hfind, store, lookups]
    omega

theorem capacity_lookUp (a b : Language) : (c.use (.lookUp a b)).capacity = c.capacity := by
  cases hfind : c.find? (a, b) with
  | some value => simp only [use, StateT.run, Language.orCached, hfind, refresh]
  | none => simp only [use, StateT.run, Language.orCached, hfind, store]

/-! ### The order of the last look-ups -/

/-- The unions of a history that has the latest first, each once, at its latest place. -/
def recency : List UnionKey → List UnionKey
  | [] => []
  | key :: before => key :: (recency before).filter (· != key)

variable {history after before : List UnionKey}

@[simp]
theorem mem_recency : key ∈ recency history ↔ key ∈ history := by
  induction history with
  | nil => rfl
  | cons latest before ih =>
    rw [recency, List.mem_cons, List.mem_cons, List.mem_filter, ih, bne_iff_ne]
    tauto

theorem nodup_recency (history : List UnionKey) : (recency history).Nodup := by
  induction history with
  | nil => exact .nil
  | cons latest before ih =>
    have hlatest : latest ∉ (recency before).filter (· != latest) := by simp
    exact .cons hlatest (ih.filter _)

theorem length_recency (history : List UnionKey) :
    (recency history).length = history.toFinset.card := by
  rw [← List.toFinset_card_of_nodup (nodup_recency history)]
  congr 1
  ext key
  simp

theorem pairwise_idxOf_recency (history : List UnionKey) :
    (recency history).Pairwise fun k k' => history.idxOf k < history.idxOf k' := by
  induction history with
  | nil => exact .nil
  | cons latest before ih =>
    have hlater : ∀ k ∈ (recency before).filter (· != latest),
        (latest :: before).idxOf k = before.idxOf k + 1 := by
      intro k hk
      exact List.idxOf_cons_ne before (bne_iff_ne.1 (List.mem_filter.1 hk).2).symm
    refine .cons (fun k hk => ?_) ?_
    · rw [hlater k hk, List.idxOf_cons_self]
      exact Nat.succ_pos _
    · refine (ih.filter _).imp_of_mem fun {k k'} hk hk' hlt => ?_
      rw [hlater k hk, hlater k' hk']
      exact Nat.succ_lt_succ hlt

/-- Before the last place of a union come just those that were looked up after it. -/
theorem recency_append (before : List UnionKey) (h : key ∉ after) :
    ∃ rest, recency (after ++ key :: before) = recency after ++ key :: rest := by
  induction after with
  | nil => exact ⟨_, rfl⟩
  | cons latest later ih =>
    obtain ⟨rest, hrest⟩ := ih (List.not_mem_of_not_mem_cons h)
    have hkept : (key :: rest).filter (· != latest) = key :: rest.filter (· != latest) :=
      List.filter_cons_of_pos (bne_iff_ne.2 (List.ne_of_not_mem_cons h))
    refine ⟨rest.filter (· != latest), ?_⟩
    rw [List.cons_append, recency, hrest, List.filter_append, hkept]
    rfl

/-- The place of a union in the order tells how many others were looked up after it. -/
theorem mem_take_recency_iff :
    key ∈ (recency history).take n ↔ ∃ after before,
      history = after ++ key :: before ∧ key ∉ after ∧ after.toFinset.card < n := by
  constructor
  · intro hkey
    obtain ⟨after, before, rfl, hafter⟩ :=
      List.eq_append_cons_of_mem (mem_recency.1 (List.mem_of_mem_take hkey))
    refine ⟨after, before, rfl, hafter, ?_⟩
    obtain ⟨rest, hrest⟩ := recency_append before hafter
    by_contra hlong
    rw [hrest, List.take_append_of_le_length (by rw [length_recency]; omega)] at hkey
    exact hafter (mem_recency.1 (List.mem_of_mem_take hkey))
  · rintro ⟨after, before, rfl, hafter, hlt⟩
    obtain ⟨rest, hrest⟩ := recency_append before hafter
    rw [hrest, List.take_append, length_recency]
    obtain ⟨m, hm⟩ := Nat.exists_eq_add_of_lt hlt
    have hroom : n - after.toFinset.card = m + 1 := by omega
    rw [hroom, List.take_succ_cons]
    exact List.mem_append_right _ List.mem_cons_self

/-- What has no room behind the latest one has no room behind the others either. -/
theorem take_filter_take {keys : List UnionKey} (h : keys.Nodup) (key : UnionKey) (n : Nat) :
    ((keys.take (n + 1)).filter (· != key)).take n = (keys.filter (· != key)).take n := by
  induction keys generalizing n with
  | nil => rfl
  | cons first rest ih =>
    obtain ⟨hfirst, hrest⟩ := List.nodup_cons.1 h
    rw [List.take_succ_cons]
    by_cases heq : first = key
    · subst heq
      have hfree : ∀ k ∈ rest, (k != first) = true := fun k hk =>
        bne_iff_ne.2 (ne_of_mem_of_not_mem hk hfirst)
      have hnone : rest.filter (· != first) = rest := List.filter_eq_self.2 hfree
      have hnone' : (rest.take n).filter (· != first) = rest.take n :=
        List.filter_eq_self.2 fun k hk => hfree k (List.mem_of_mem_take hk)
      rw [List.filter_cons_of_neg (by simp), List.filter_cons_of_neg (by simp), hnone, hnone',
        List.take_take, Nat.min_self]
    · have hkept : ∀ keys, (first :: keys).filter (· != key) = first :: keys.filter (· != key) :=
        fun _ => List.filter_cons_of_pos (bne_iff_ne.2 heq)
      rw [hkept, hkept]
      cases n with
      | zero => rfl
      | succ n => rw [List.take_succ_cons, List.take_succ_cons, ih hrest]

/-! ### What is still known -/

def note (history : List UnionKey) : Use → List UnionKey
  | .lookUp a b => (a, b) :: history
  | .clear => []
  | _ => history

/-- The unions that were looked up since the memory was last cleared, the latest first. -/
def lookedUp (us : List Use) : List UnionKey := us.foldl note []

/-- The use is no half of a look-up. -/
def Use.Whole : Use → Prop
  | .look _ _ => False
  | .keep _ _ => False
  | _ => True

/-- Look-ups, and changes to the capacity that there is. -/
def Use.Steady (n : Nat) : Use → Prop
  | .lookUp _ _ => True
  | .resize m _ => m = n
  | _ => False

theorem Step.whole_of_mem_uses {st : Step} {u : Use} (h : u ∈ st.uses) : u.Whole := by
  cases st with
  | work w =>
    obtain ⟨key, -, rfl⟩ := List.mem_map.1 h
    exact trivial
  | clear =>
    rw [List.mem_singleton.1 h]
    exact trivial
  | resize n hn =>
    rw [List.mem_singleton.1 h]
    exact trivial

theorem keys_prefix_use (h : c.Sound) (hkeys : c.keys <+: recency history) {u : Use}
    (hu : u.Whole) : (c.use u).keys <+: recency (note history u) := by
  cases u with
  | lookUp a b =>
    rw [keys_lookUp h a b]
    refine (List.take_prefix _ _).trans ?_
    exact (List.prefix_cons_inj _).2 (hkeys.filter _)
  | look a b => exact hu.elim
  | keep a b => exact hu.elim
  | clear => exact List.nil_prefix
  | resize n hn =>
    rw [keys_resize]
    exact (List.take_prefix _ _).trans hkeys

/-- Whatever was done with the memory, it knows the latest of what was looked up. -/
theorem keys_prefix_useAll (us : List Use) (hus : ∀ u ∈ us, u.Whole) :
    (fresh.useAll us).keys <+: recency (lookedUp us) := by
  induction us using List.reverseRecOn with
  | nil => exact List.nil_prefix
  | append_singleton us u ih =>
    have hbefore := ih fun v hv => hus v (List.mem_append_left _ hv)
    have hu : u.Whole := hus u (List.mem_append_right _ (List.mem_singleton_self u))
    rw [useAll_append, lookedUp, List.foldl_append]
    exact keys_prefix_use (sound_fresh.useAll us) hbefore hu

/-- At one capacity, the memory that was empty at the beginning knows all that has room. -/
theorem keys_useAll_of_steady (h : c.Sound) (hempty : c.entries = []) (us : List Use)
    (hus : ∀ u ∈ us, u.Steady c.capacity) :
    (c.useAll us).capacity = c.capacity ∧
      (c.useAll us).keys = (recency (lookedUp us)).take c.capacity := by
  induction us using List.reverseRecOn with
  | nil =>
    refine ⟨rfl, ?_⟩
    have hkeys : c.keys = [] := by rw [keys, hempty, List.map_nil]
    exact hkeys.trans (List.take_nil).symm
  | append_singleton us u ih =>
    obtain ⟨hcapacity, hkeys⟩ := ih fun v hv => hus v (List.mem_append_left _ hv)
    have hu := hus u (List.mem_append_right _ (List.mem_singleton_self u))
    have hlookedUp : lookedUp (us ++ [u]) = note (lookedUp us) u := List.foldl_append
    have huse : c.useAll (us ++ [u]) = (c.useAll us).use u := useAll_append us [u]
    rw [huse, hlookedUp]
    cases u with
    | lookUp a b =>
      refine ⟨(capacity_lookUp a b).trans hcapacity, ?_⟩
      obtain ⟨room, hroom⟩ := Nat.exists_eq_add_one.2 c.capacity_pos
      rw [keys_lookUp (h.useAll us), hcapacity, hkeys, hroom, List.take_succ_cons,
        take_filter_take (nodup_recency _)]
      rfl
    | look a b => exact hu.elim
    | keep a b => exact hu.elim
    | clear => exact hu.elim
    | resize m hm =>
      have hsame : m = c.capacity := hu
      subst hsame
      refine ⟨rfl, ?_⟩
      rw [keys_resize, hkeys, List.take_take, Nat.min_self]
      rfl

theorem lookups_lookUps (keys : List UnionKey) :
    (c.useAll (keys.map fun key => .lookUp key.1 key.2)).lookups = c.lookups + keys.length := by
  induction keys generalizing c with
  | nil => rfl
  | cons key rest ih =>
    have hrest : (c.useAll ((key :: rest).map fun key => .lookUp key.1 key.2)).lookups =
        ((c.use (.lookUp key.1 key.2)).useAll
          (rest.map fun key => .lookUp key.1 key.2)).lookups := rfl
    rw [hrest, ih, lookups_lookUp, List.length_cons]
    omega

theorem step_eq_useAll (h : c.Sound) (st : Step) : c.step st = c.useAll st.uses := by
  have hlogged := congrArg Logged.cache (Logged.step_eq (s := ⟨c, []⟩) h st)
  rwa [Logged.cache_step, Logged.cache_useAll] at hlogged

theorem lookups_step (h : c.Sound) (st : Step) :
    (c.step st).lookups = c.lookups + st.evaluations := by
  cases st with
  | work w =>
    rw [step_eq_useAll h]
    exact lookups_lookUps w.unions
  | clear => rfl
  | resize n hn => rfl

theorem lookups_foldl_step (h : c.Sound) (steps : List Step) :
    (steps.foldl step c).lookups = c.lookups + (steps.map Step.evaluations).sum := by
  induction steps generalizing c with
  | nil => rfl
  | cons st rest ih =>
    have hsound : (c.step st).Sound := by
      rw [step_eq_useAll h]
      exact h.useAll _
    rw [List.foldl_cons, ih hsound, lookups_step h, List.map_cons, List.sum_cons, Nat.add_assoc]

theorem answers_iff_of_steady (h : c.Sound) (hempty : c.entries = []) (us : List Use)
    (hus : ∀ u ∈ us, u.Steady c.capacity) (l r : Language) :
    (c.useAll us).answers (.lookUp l r) = true ↔ ∃ after before,
      lookedUp us = after ++ (l, r) :: before ∧ (l, r) ∉ after ∧
        after.toFinset.card < c.capacity := by
  rw [answers, decide_eq_true_iff, hits_lookUp, (keys_useAll_of_steady h hempty us hus).2,
    mem_take_recency_iff]

/-- The accounts of the memory: every evaluation of a union counts once. It knows the unions
that it knows in the order in which they were last looked up since it was cleared. From a time
when it was empty, and for as long as its capacity stays what it was then, it answers a look-up
just when the same union was looked up since, and after that fewer others than there is room for.
The log has every look-up in its place, also those from within one computation. -/
theorem union_memory_accounts (steps : List Step) :
    let c := steps.foldl step fresh
    let s := steps.foldl Logged.step .fresh
    let looked := lookedUp (steps.flatMap Step.uses)
    (s.cache = c ∧ s.log.map (·.1) = steps.flatMap Step.uses) ∧
    c.hits + c.misses = (steps.map Step.evaluations).sum ∧
    (c.keys.Nodup ∧ (∀ key ∈ c.keys, key ∈ looked) ∧
      c.keys.Pairwise fun key key' => looked.idxOf key < looked.idxOf key') ∧
    ∀ past since later l r hit, s.log = past ++ since ++ (.lookUp l r, hit) :: later →
      (fresh.useAll (past.map (·.1))).entries = [] →
      (∀ entry ∈ since, entry.1.Steady (fresh.useAll (past.map (·.1))).capacity) →
      (hit = true ↔ ∃ after before,
        lookedUp (since.map (·.1)) = after ++ (l, r) :: before ∧ (l, r) ∉ after ∧
          after.toFinset.card < (fresh.useAll (past.map (·.1))).capacity) := by
  intro c s looked
  have hcache : s.cache = c := Logged.cache_foldl_step steps
  have hs : s = Logged.fresh.useAll (steps.flatMap Step.uses) :=
    Logged.foldl_step_eq sound_fresh steps
  have hlog : s.log.map (·.1) = steps.flatMap Step.uses := by
    rw [hs, Logged.log_useAll]
    rfl
  have hc : c = fresh.useAll (steps.flatMap Step.uses) := by
    rw [← hcache, hs, Logged.cache_useAll]
    rfl
  have hwhole : ∀ u ∈ steps.flatMap Step.uses, u.Whole := by
    intro u hu
    obtain ⟨st, -, hst⟩ := List.mem_flatMap.1 hu
    exact Step.whole_of_mem_uses hst
  have hkeys : c.keys <+: recency looked := hc ▸ keys_prefix_useAll _ hwhole
  refine ⟨⟨hcache, hlog⟩, ?_, ⟨?_, ?_, ?_⟩, ?_⟩
  · exact (lookups_foldl_step sound_fresh steps).trans (Nat.zero_add _)
  · exact (nodup_recency looked).sublist hkeys.sublist
  · exact fun key hkey => mem_recency.1 (hkeys.subset hkey)
  · exact (pairwise_idxOf_recency looked).sublist hkeys.sublist
  · intro past since later l r hit hsplit hempty hsteady
    rw [hs] at hsplit
    have hsteady' : ∀ u ∈ since.map (·.1), u.Steady (fresh.useAll (past.map (·.1))).capacity := by
      intro u hu
      obtain ⟨entry, hentry, rfl⟩ := List.mem_map.1 hu
      exact hsteady entry hentry
    rw [Logged.answered_of_log hsplit, List.map_append, useAll_append]
    exact answers_iff_of_steady (sound_fresh.useAll _) hempty _ hsteady' l r

/-- Room for two unions, the first of which is looked up again after one other. -/
def again : List Step :=
  [.resize 2 Nat.two_pos, .work (.or (.literal 'a') (.literal 'b')),
    .work (.optional (.literal 'c')), .work (.or (.literal 'a') (.literal 'b'))]

theorem union_memory_accounts_again :
    (again.foldl Logged.step .fresh).log.map (·.2) = [false, false, false, true] ∧
      ∃ after before : List UnionKey,
        [(.emptyString, .literal 'c'), (.literal 'a', .literal 'b')] =
          after ++ (.literal 'a', .literal 'b') :: before ∧
        (Language.literal 'a', Language.literal 'b') ∉ after ∧ after.toFinset.card < 2 := by
  refine ⟨rfl, ?_⟩
  refine ((union_memory_accounts again).2.2.2 [(.resize 2 Nat.two_pos, false)]
    [(.lookUp (.literal 'a') (.literal 'b'), false),
      (.lookUp .emptyString (.literal 'c'), false)] [] (.literal 'a') (.literal 'b') true
    rfl rfl ?_).1 rfl
  intro entry hentry
  rcases List.mem_pair.1 hentry with rfl | rfl
  · exact trivial
  · exact trivial

end UnionCache

end DerivativeLexer
