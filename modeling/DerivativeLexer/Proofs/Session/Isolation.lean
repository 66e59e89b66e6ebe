import DerivativeLexer.Proofs.Session.Compartment
import DerivativeLexer.Proofs.Session.Lifecycle

/-! # Sessions do not see one another

The sessions of a lexer share its table, its configuration and a memory of unions that the whole
process uses. When everybody keeps to his own sources, a session is all the same at every point
what it is when the lexer is used for nothing else.

A run of everybody is seen from a compartment event by event. An event of the compartment happens
there as well, and of any other only the number of a new source is seen. Since the memory never
changes what a task does, a run with one memory is a run with any other. -/

namespace DerivativeLexer

variable {τ π : Type}

def Event.placeholder : Event τ → List (Event τ)
  | .addSource _ => [.addSource .fresh]
  | _ => []

namespace Compartment

def hasEvent (p : Compartment) (n : Network τ π) : Event τ → Bool
  | .task task _ => p.hasTask task
  | .call r => p.hasRequest r
  | .launch t _ _ | .disturb t _ | .subscribe t _ => p.sources t
  | .drop y | .listen y _ => y == p.session
  | .addSource _ => p.sources n.inputs.size
  | .takeNotices => true

/-- What is left of an event when there is only the compartment. A source of somebody else is
there for its number, so that the sources of the compartment have the same numbers. -/
def share (p : Compartment) (n : Network τ π) (e : Event τ) : List (Event τ) :=
  if p.hasEvent n e then [e] else e.placeholder

variable {p : Compartment} {n : Network τ π} {e : Event τ}

theorem share_own (h : p.hasEvent n e = true) : p.share n e = [e] := if_pos h

theorem share_other (h : p.hasEvent n e = false) : p.share n e = e.placeholder :=
  if_neg (Bool.not_eq_true _ ▸ h)

/-- The event keeps the compartment and everybody else apart: a task and its listener ask for
nothing on the other side, and a source and a session that are brought together are on the same
side. -/
def Keeps (p : Compartment) (n : Network τ π) : Event τ → Prop
  | .task task asked =>
    (∀ r ∈ asked, p.hasRequest r = p.hasTask task) ∧
      ∀ r, { n with agenda := n.agenda.tail }.Asked n.step r → p.hasRequest r = p.hasTask task
  | .launch t _ _ => p.sources t = (n.sessions.size == p.session)
  | .subscribe t (.session y) => p.sources t = (y == p.session)
  | _ => True

namespace Walled

variable {p : Compartment} {n n' : Network τ π} {e : Event τ}

theorem of_wiring_eq (h : p.Walled n) (hwiring : n'.wiring = n.wiring) : p.Walled n' where
  readers := by
    intro y σ hσ
    obtain ⟨σ₀, hσ₀, hsame⟩ := Network.session?_wiring hwiring hσ
    rw [← show σ₀.input = σ.input from congrArg Prod.fst hsame]
    exact h.readers y σ₀ hσ₀
  subscribers := fun t k y hy => h.subscribers t k y (hy.of_wiring_eq hwiring.symm)

theorem fresh (l : Lexer τ π) : p.Walled (.fresh l) where
  readers := fun _ _ hσ => nomatch hσ
  subscribers := fun _ _ _ hy => nomatch hy

theorem subscribe (h : p.Walled n) (t : Nat) {u : Subscriber}
    (hu : ∀ y, u = .session y → p.sources t = (y == p.session)) : p.Walled (n.subscribe t u) where
  readers := h.readers
  subscribers := by
    intro t' k y hy
    rw [Network.Notifies, Network.subscribe, Array.getElem?_modify] at hy
    split_ifs at hy with ht
    · subst ht
      cases hi : n.inputs[t]? with
      | none =>
        rw [hi] at hy
        cases hy
      | some i =>
        rw [hi, Option.map_some, Option.bind_some, List.getElem?_append] at hy
        split_ifs at hy
        · refine h.subscribers t k y ?_
          rw [Network.Notifies, hi]
          exact hy
        · exact hu y (List.mem_singleton.1 (List.mem_of_getElem? hy)).symm
    · exact h.subscribers t' k y hy

theorem addSource (h : p.Walled n) (source : Source Char) : p.Walled (n.addSource source).2 where
  readers := h.readers
  subscribers := by
    intro t k y hy
    rw [Network.Notifies, Network.addSource, Array.getElem?_push] at hy
    split_ifs at hy
    · cases hy
    · exact h.subscribers t k y hy

theorem happens (h : p.Walled n) (hnext : n.Happens e n') (hkeeps : p.Keeps n e) :
    p.Walled n' := by
  cases hnext with
  | task hagenda hasked => exact h.of_wiring_eq Network.wiring_step
  | call r hagenda => exact ⟨h.readers, h.subscribers⟩
  | launch t hagenda hreached =>
    refine ⟨fun y σ hσ => ?_, h.subscribers⟩
    rcases Network.session?_launch t _ _ hσ with hσ | ⟨rfl, -, rfl⟩
    · exact h.readers y σ hσ
    · exact hkeeps
  | drop y hagenda =>
    exact ⟨fun z σ hσ => h.readers z σ (Network.session?_of_drop hσ), h.subscribers⟩
  | addSource source => exact h.addSource source
  | disturb t source => exact h.of_wiring_eq (Network.wiring_modifySource t _)
  | subscribe t u =>
    refine h.subscribe t fun y hu => ?_
    subst hu
    exact hkeeps
  | listen y r =>
    refine ⟨fun z σ hσ => ?_, h.subscribers⟩
    obtain ⟨σ₀, hσ₀, hinput, -⟩ := Network.session?_listen hσ
    rw [hinput]
    exact h.readers z σ₀ hσ₀
  | takeNotices => exact ⟨h.readers, h.subscribers⟩

end Walled

end Compartment

namespace Network

variable {p : Compartment} {n n' : Network τ π} {e : Event τ}

/-! ### Events seen from inside -/

theorem listens_only {task : Task τ} (h : p.hasTask task = true) :
    (n.only p).Listens task ↔ n.Listens task := by
  cases task with
  | tellInput t k text => rw [Listens, Listens, inputs_only h]
  | tellOutput y k items =>
    obtain rfl := eq_of_beq h
    rw [Listens, Listens, session?_only]
  | _ => exact Iff.rfl

theorem only_step {task : Task τ} {rest : List (Task τ)} (hwalled : p.Walled n)
    (hagenda : n.agenda = task :: rest)
    (hasked : ∀ r, { n with agenda := rest }.Asked n.step r → p.hasRequest r = p.hasTask task) :
    n.step.only p = if p.hasTask task then (n.only p).step else n.only p := by
  have hrest : p.Walled { n with agenda := rest } := ⟨hwalled.readers, hwalled.subscribers⟩
  have hstep : n.step = { n with agenda := rest }.perform task := by
    rw [step, hagenda]
  rw [hstep] at hasked ⊢
  rw [only_perform hrest hasked]
  split_ifs with hmine
  · rw [step]
    simp [only, hagenda, hmine]
  · simp [only, hagenda, hmine]

/-- An event of the compartment happens there, and any other but a new source is not seen. -/
theorem runs_share (hplace : e.placeholder = [])
    (hown : p.hasEvent n e = true → (n.only p).Happens e (n'.only p))
    (hother : p.hasEvent n e = false → n'.only p = n.only p) :
    (n.only p).Runs (p.share n e) (n'.only p) := by
  cases hmine : p.hasEvent n e with
  | true =>
    rw [Compartment.share_own hmine]
    exact .one (hown hmine)
  | false =>
    rw [Compartment.share_other hmine, hplace, hother hmine]
    exact .refl

theorem runs_only_task {task : Task τ} {rest : List (Task τ)} {asked : List Request}
    (hwalled : p.Walled n) (hagenda : n.agenda = task :: rest)
    (hlistens : asked = [] ∨ n.Listens task) (hkeeps : p.Keeps n (.task task asked)) :
    (n.only p).Runs (p.share n (.task task asked))
      ((n.step.schedule (asked.map .request)).only p) := by
  obtain ⟨hasked, hadded⟩ := hkeeps
  rw [hagenda, List.tail_cons] at hadded
  have hstep := only_step hwalled hagenda hadded
  have hrequests : ∀ other ∈ asked.map (.request : Request → Task τ),
      p.hasTask other = p.hasTask task := by
    intro other hother
    obtain ⟨r, hr, rfl⟩ := List.mem_map.1 hother
    exact hasked r hr
  refine runs_share rfl (fun hmine => ?_) fun hmine => ?_
  · have htask : p.hasTask task = true := hmine
    have honly : (n.only p).agenda = task :: rest.filter p.hasTask := by
      simp [only, hagenda, htask]
    rw [htask] at hrequests
    rw [only_schedule_own hrequests, hstep, if_pos htask]
    exact .task honly (hlistens.imp_right (listens_only htask).2)
  · have htask : p.hasTask task = false := hmine
    rw [htask] at hrequests hstep
    rw [only_schedule_other hrequests, hstep]
    rfl

theorem only_launch_own (h : n.sessions.size = p.session) (t offset : Nat) (reader : Reader Char) :
    (n.launch t offset reader).only p = (n.only p).launch t offset reader := by
  have hnone : n.sessions[p.session]? = none := Array.getElem?_eq_none (Nat.le_of_eq h)
  have hlast (o : Option (Session τ π)) : (n.sessions.push o)[p.session]? = some o := by
    rw [← h, Array.getElem?_push_size]
  have hsize : (n.only p).sessions.size = n.sessions.size := by
    simp [only, h]
  unfold launch
  rw [only_schedule_task_own (by exact congrArg some h), hsize]
  simp only [only, hnone, hlast]
  simp

theorem only_launch_other (h : n.sessions.size ≠ p.session) (t offset : Nat)
    (reader : Reader Char) : (n.launch t offset reader).only p = n.only p := by
  unfold launch
  rw [only_schedule_task_other h (by rfl)]
  simp [only, Array.getElem?_push, Ne.symm h]

theorem only_addSource (source : Source Char) :
    (n.addSource source).2.only p =
      ((n.only p).addSource (if p.sources n.inputs.size then source else .fresh)).2 := by
  simp only [addSource, only, Array.mapIdx_push]
  split_ifs <;> rfl

theorem Happens.runs_only (h : n.Happens e n') (hwalled : p.Walled n) (hkeeps : p.Keeps n e) :
    (n.only p).Runs (p.share n e) (n'.only p) := by
  have hidle (hagenda : n.agenda = []) : (n.only p).agenda = [] := by
    simp [only, hagenda]
  cases h with
  | task hagenda hasked => exact runs_only_task hwalled hagenda hasked hkeeps
  | call r hagenda =>
    refine runs_share rfl (fun hmine => ?_) fun hmine => ?_
    · rw [only_schedule_own (List.forall_mem_singleton.2 (by exact hmine))]
      exact .call r (hidle hagenda)
    · exact only_schedule_other (List.forall_mem_singleton.2 hmine)
  | @launch t offset reader hagenda hreached =>
    have hside : p.sources t = (n.sessions.size == p.session) := hkeeps
    refine runs_share rfl (fun hmine => ?_) fun hmine => ?_
    · rw [only_launch_own (eq_of_beq (hside.symm.trans hmine))]
      exact .launch t (hidle hagenda) hreached
    · exact only_launch_other (ne_of_beq_false (hside.symm.trans hmine)) t _ _
  | drop y hagenda =>
    refine runs_share rfl (fun hmine => ?_) fun hmine => ?_
    · obtain rfl := eq_of_beq hmine
      rw [Network.drop, only_modifyPlace_own]
      exact .drop p.session (hidle hagenda)
    · exact only_modifyPlace_other (ne_of_beq_false hmine) _
  | addSource source =>
    rw [only_addSource]
    cases hmine : p.sources n.inputs.size with
    | true =>
      rw [Compartment.share_own (by exact hmine)]
      exact .one (.addSource source)
    | false =>
      rw [Compartment.share_other (by exact hmine)]
      exact .one (.addSource .fresh)
  | disturb t source =>
    refine runs_share rfl (fun hmine => ?_) fun hmine => ?_
    · rw [only_modifySource_own hmine]
      exact .disturb t source
    · exact only_modifySource_other hmine _
  | subscribe t u =>
    refine runs_share rfl (fun hmine => ?_) fun hmine => ?_
    · rw [Network.subscribe, only_modifyInput_own hmine]
      exact .subscribe t u
    · exact only_modifyInput_other hmine _
  | listen y r =>
    refine runs_share rfl (fun hmine => ?_) fun hmine => ?_
    · obtain rfl := eq_of_beq hmine
      rw [Network.listen, only_modifySession_own]
      exact .listen p.session r
    · exact only_modifySession_other (ne_of_beq_false hmine) _
  | takeNotices =>
    have hsame : n.takeNotices.2.only p = (n.only p).takeNotices.2 := by
      simp [only, Network.takeNotices]
    refine runs_share rfl (fun _ => ?_) fun hmine => ?_
    · rw [hsame]
      exact .takeNotices
    · cases hmine

/-- An empty network whose first session gets the number `x`. -/
def freshAt (l : Lexer τ π) (x : Nat) : Network τ π := ⟨l, #[], .replicate x none, #[], []⟩

example (l : Lexer τ π) : freshAt l 0 = fresh l := rfl

theorem only_fresh (l : Lexer τ π) : (fresh l).only p = freshAt l p.session := by
  simp [only, fresh, freshAt]

/-! ### What happens is determined by the events -/

theorem Happens.unique {m : Network τ π} (h : n.Happens e n') (h' : n.Happens e m) : n' = m := by
  cases h <;> cases h' <;> rfl

theorem Runs.exists_of_snoc {trace : List (Event τ)} (h : n.Runs (trace ++ [e]) n') :
    ∃ m, n.Runs trace m ∧ m.Happens e n' := by
  generalize htrace : trace ++ [e] = events at h
  cases h with
  | refl => simp at htrace
  | snoc hbefore hnext =>
    obtain ⟨rfl, hlast⟩ := List.append_inj' htrace rfl
    obtain rfl := List.singleton_inj.1 hlast
    exact ⟨_, hbefore, hnext⟩

theorem Runs.unique {m : Network τ π} {trace : List (Event τ)} (h : n.Runs trace n')
    (h' : n.Runs trace m) : n' = m := by
  induction h generalizing m with
  | refl =>
    generalize htrace : ([] : List (Event τ)) = events at h'
    cases h' with
    | refl => rfl
    | snoc => simp at htrace
  | snoc _ hnext ih =>
    obtain ⟨k, hbefore, hnext'⟩ := h'.exists_of_snoc
    obtain rfl := ih hbefore
    exact hnext.unique hnext'

end Network

/-! ### Unions looked up -/

/-- A network at work whose unions are looked up in a memory that others use as well. -/
structure SharedNetwork (τ π : Type) where
  network : Network τ π
  memory : SharedCache

namespace SharedNetwork

inductive Happens (w : SharedNetwork τ π) : Event τ → SharedNetwork τ π → Prop
  | task {task : Task τ} {rest : List (Task τ)} {asked : List Request} {n : Network τ π}
      {memory : SharedCache} (hagenda : w.network.agenda = task :: rest)
      (hasked : asked = [] ∨ w.network.Listens task)
      (hstep : (w.network.stepVia Language.orShared).run w.memory = (n, memory)) :
      Happens w (.task task asked) ⟨n.schedule (asked.map .request), memory⟩
  | aside {e : Event τ} {n : Network τ π} (hevent : ∀ task asked, e ≠ .task task asked)
      (hnext : w.network.Happens e n) : Happens w e ⟨n, w.memory⟩

inductive Runs (w : SharedNetwork τ π) : List (Event τ) → SharedNetwork τ π → Prop
  | refl : Runs w [] w
  | snoc {trace : List (Event τ)} {m m' : SharedNetwork τ π} {e : Event τ} (h : Runs w trace m)
      (hnext : m.Happens e m') : Runs w (trace ++ [e]) m'

/-- A run of everybody that keeps the compartment apart, and what is left of its events when there
is only the compartment. -/
inductive Splits (p : Compartment) (w : SharedNetwork τ π) :
    List (Event τ) → List (Event τ) → SharedNetwork τ π → Prop
  | refl : Splits p w [] [] w
  | snoc {trace part : List (Event τ)} {m m' : SharedNetwork τ π} {e : Event τ}
      (h : Splits p w trace part m) (hnext : m.Happens e m') (hkeeps : p.Keeps m.network e) :
      Splits p w (trace ++ [e]) (part ++ p.share m.network e) m'

section

variable {p : Compartment} {w w' : SharedNetwork τ π} {n : Network τ π} {e : Event τ}
  {trace part : List (Event τ)} {memory : SharedCache}

theorem sound_step (hsound : w.memory.Sound)
    (hstep : (w.network.stepVia Language.orShared).run w.memory = (n, memory)) :
    n = w.network.step ∧ memory.Sound := by
  have hyields := Network.yields_stepVia Language.yields_orShared w.network w.memory hsound
  rw [hstep] at hyields
  exact hyields

theorem Happens.network (h : w.Happens e w') (hsound : w.memory.Sound) :
    w.network.Happens e w'.network ∧ w'.memory.Sound := by
  cases h with
  | task hagenda hasked hstep =>
    obtain ⟨rfl, hsound'⟩ := sound_step hsound hstep
    exact ⟨.task hagenda hasked, hsound'⟩
  | aside _ hnext => exact ⟨hnext, hsound⟩

theorem Runs.network (h : w.Runs trace w') (hsound : w.memory.Sound) :
    w.network.Runs trace w'.network ∧ w'.memory.Sound := by
  induction h with
  | refl => exact ⟨.refl, hsound⟩
  | snoc _ hnext ih =>
    obtain ⟨hbefore, hsound'⟩ := ih
    obtain ⟨hnext', hsound''⟩ := hnext.network hsound'
    exact ⟨hbefore.snoc hnext', hsound''⟩

theorem exists_happens (h : w.network.Happens e n) (hsound : w.memory.Sound) :
    ∃ memory, w.Happens e ⟨n, memory⟩ ∧ memory.Sound := by
  by_cases hevent : ∃ task asked, e = .task task asked
  · obtain ⟨task, asked, rfl⟩ := hevent
    cases h with
    | task hagenda hasked =>
      obtain ⟨hstep, hsound'⟩ := sound_step hsound rfl
      rw [← hstep]
      exact ⟨_, .task hagenda hasked rfl, hsound'⟩
  · exact ⟨w.memory, .aside (fun task asked he => hevent ⟨task, asked, he⟩) h, hsound⟩

theorem exists_runs (h : w.network.Runs trace n) (hsound : w.memory.Sound) :
    ∃ memory, w.Runs trace ⟨n, memory⟩ ∧ memory.Sound := by
  induction h with
  | refl => exact ⟨w.memory, .refl, hsound⟩
  | @snoc trace m m' e _ hnext ih =>
    obtain ⟨memory, hbefore, hsound'⟩ := ih
    obtain ⟨memory', hnext', hsound''⟩ := exists_happens (w := ⟨m, memory⟩) hnext hsound'
    exact ⟨memory', hbefore.snoc hnext', hsound''⟩

/-- What the compartment sees of a run is a run. -/
theorem Splits.runs_only (h : w.Splits p trace part w') (hwalled : p.Walled w.network)
    (hsound : w.memory.Sound) :
    (w.network.only p).Runs part (w'.network.only p) ∧ p.Walled w'.network ∧
      w'.memory.Sound := by
  induction h with
  | refl => exact ⟨.refl, hwalled, hsound⟩
  | snoc _ hnext hkeeps ih =>
    obtain ⟨hbefore, hwalled', hsound'⟩ := ih
    -- with a sound memory the task gives what it gives without one
    obtain ⟨hnext', hsound''⟩ := hnext.network hsound'
    exact ⟨hbefore.trans (hnext'.runs_only hwalled' hkeeps), hwalled'.happens hnext' hkeeps,
      hsound''⟩

end

end SharedNetwork

/-- Whatever is done with everybody's sources and sessions in whichever order, and whatever others
do with the memory of unions meanwhile, as long as the compartment is kept apart its session, with
its items, its status and its payloads, and its sources are what they are when only its own events
happen to a fresh lexer, and its listeners are told the same. -/
theorem sessions_isolated {l : Lexer τ π} {p : Compartment} {uses : List UnionCache.Use}
    {others : Nat → Disturbance} {trace part : List (Event τ)} {w : SharedNetwork τ π}
    (h : SharedNetwork.Splits p ⟨.fresh l, ⟨UnionCache.fresh.useAll uses, others⟩⟩ trace part w)
    (uses' : List UnionCache.Use) (others' : Nat → Disturbance) :
    let alone : SharedNetwork τ π :=
      ⟨.freshAt l p.session, ⟨UnionCache.fresh.useAll uses', others'⟩⟩
    (∃ w', alone.Runs part w') ∧
      ∀ w', alone.Runs part w' →
        w'.network.session? p.session = w.network.session? p.session ∧
          (∀ s, p.sources s = true → w'.network.source? s = w.network.source? s) ∧
          w'.network.notices = w.network.notices.filter (·.session == p.session) := by
  intro alone
  have hsound (uses : List UnionCache.Use) : (UnionCache.fresh.useAll uses).Sound :=
    UnionCache.sound_fresh.useAll uses
  have hruns : alone.network.Runs part (w.network.only p) := by
    obtain ⟨hruns, -⟩ := h.runs_only (.fresh l) (hsound uses)
    rwa [Network.only_fresh] at hruns
  have halone : alone.memory.Sound := hsound uses'
  obtain ⟨memory, hexists, -⟩ := SharedNetwork.exists_runs hruns halone
  refine ⟨⟨_, hexists⟩, fun w' hw' => ?_⟩
  -- a run of the same events, whatever its memory, ends in the same network
  have hsame : w'.network = w.network.only p := (hw'.network halone).1.unique hruns
  rw [hsame]
  exact ⟨Network.session?_only, fun s hs => Network.source?_only hs, rfl⟩

/-! ### Two sessions in the middle of their strings -/

/-- None of the next tasks asks for anything on the other side. -/
def Network.keepsSettling (p : Compartment) (n : Network τ π) : Nat → Bool
  | 0 => true
  | fuel + 1 =>
    match n.agenda with
    | [] => true
    | task :: rest =>
      ((n.step.agenda.take (n.step.agenda.length - rest.length)).all fun
        | .request r => p.hasRequest r == p.hasTask task
        | _ => true) && n.step.keepsSettling p fuel

namespace SharedNetwork

/-- The network comes about from `w` with the compartment kept apart. -/
def Reaches (p : Compartment) (w : SharedNetwork τ π) (n : Network τ π) : Prop :=
  ∃ trace part memory, w.Splits p trace part ⟨n, memory⟩ ∧ memory.Sound

namespace Reaches

variable {p : Compartment} {w : SharedNetwork τ π} {n n' : Network τ π} {e : Event τ}

theorem next (h : w.Reaches p n) (hnext : n.Happens e n') (hkeeps : p.Keeps n e) :
    w.Reaches p n' := by
  obtain ⟨trace, part, memory, hsplits, hsound⟩ := h
  obtain ⟨memory', hnext', hsound'⟩ := exists_happens (w := ⟨n, memory⟩) hnext hsound
  exact ⟨_, _, memory', hsplits.snoc hnext' hkeeps, hsound'⟩

theorem settle {fuel : Nat} (h : w.Reaches p n) (hkeeps : n.keepsSettling p fuel = true) :
    w.Reaches p (n.settle fuel) := by
  induction fuel generalizing n with
  | zero => exact h
  | succ fuel ih =>
    rw [Network.settle]
    cases hagenda : n.agenda with
    | nil => exact h
    | cons task rest =>
      simp only [Network.keepsSettling, hagenda, Bool.and_eq_true] at hkeeps
      obtain ⟨hnow, hlater⟩ := hkeeps
      have hnone : ∀ r ∈ ([] : List Request), p.hasRequest r = p.hasTask task := by
        intro r hr
        cases hr
      refine ih (h.next (.task hagenda (.inl rfl)) ⟨hnone, ?_⟩) hlater
      rintro r ⟨added, hadded, hr⟩
      rw [hagenda, List.tail_cons] at hadded
      rw [hadded, List.length_append, Nat.add_sub_cancel, List.take_left,
        List.all_eq_true] at hnow
      exact eq_of_beq (hnow _ hr)

theorem ask {r : Request} {fuel : Nat} (h : w.Reaches p n) (hagenda : n.agenda = [])
    (hkeeps : (n.schedule [.request r]).keepsSettling p fuel = true) :
    w.Reaches p (n.ask r fuel) :=
  (h.next (.call r hagenda) trivial).settle hkeeps

end Reaches

end SharedNetwork

namespace Network

/-- A session is opened on a source that nothing was read from. -/
def enrolled (n : Network Token StringBody) (s x : Nat) : Network Token StringBody :=
  ((n.launch s 0 (.of .fresh)).settle 9).subscribe s (.session x)

def twoSources : Network Token StringBody :=
  (((fresh KLisp.sample).addSource .fresh).2.addSource .fresh).2

def twoSessions : Network Token StringBody := (twoSources.enrolled 0 0).enrolled 1 1

/-- Begins a string on the first source as soon as it is told something. -/
def quoter : Reaction Token := ⟨fun _ => true, 1, [.source (.push 0 "\"ab".toList)]⟩

/-- The second session is in a string. -/
def oneString : Network Token StringBody :=
  (twoSessions.listen 0 quoter).ask (.source (.push 1 "\"cd".toList)) 60

/-- The first session has written a parenthesis, and its listener has begun another string. -/
def twoStrings : Network Token StringBody := oneString.ask (.source (.push 0 "(".toList)) 60

end Network

/-- The status of a session, how many items it has written, and the values of its payloads. -/
def Session.summary (σ : Session Token StringBody) : SessionStatus × Nat × List (List Char) :=
  (σ.status, σ.items.length, σ.engine.payloads.stored.map (·.2.value))

/-- A session with the source of the same number. -/
def Compartment.pair (x : Nat) : Compartment := ⟨x, (· == x)⟩

/-- The memory is made small, and it is cleared and resized around every look-up. -/
def SharedCache.harried : SharedCache :=
  ⟨UnionCache.fresh.useAll [.resize 2 (by decide)],
    fun _ => ⟨[.clear, .resize 1 (by decide)], [.clear]⟩⟩

namespace SharedNetwork

theorem Reaches.enrolled {p : Compartment} {w : SharedNetwork Token StringBody}
    {n : Network Token StringBody} {s x : Nat} (h : w.Reaches p n) (hagenda : n.agenda = [])
    (hsize : n.sessions.size = x) (hside : p.sources s = (x == p.session))
    (hkeeps : (n.launch s 0 (.of .fresh)).keepsSettling p 9 = true) :
    w.Reaches p (n.enrolled s x) := by
  have hlaunch : w.Reaches p (n.launch s 0 (.of .fresh)) :=
    h.next (.launch s hagenda (by decide)) (by rw [Compartment.Keeps, hsize, hside])
  exact (hlaunch.settle hkeeps).next (.subscribe s (.session x)) hside

theorem reaches_twoSessions {x : Nat} (hx : x < 2) :
    Reaches (.pair x) ⟨.fresh KLisp.sample, .harried⟩ .twoSessions := by
  have hfirst : ∀ x < 2,
      (Network.twoSources.launch 0 0 (.of .fresh)).keepsSettling (.pair x) 9 = true := by
    decide +kernel
  have hsecond : ∀ x < 2, ((Network.twoSources.enrolled 0 0).launch 1 0
      (.of .fresh)).keepsSettling (.pair x) 9 = true := by
    decide +kernel
  have hnone : Reaches (.pair x) ⟨.fresh KLisp.sample, .harried⟩ (.fresh KLisp.sample) :=
    ⟨[], [], _, .refl, UnionCache.sound_fresh.useAll _⟩
  have hsources : Reaches (.pair x) ⟨.fresh KLisp.sample, .harried⟩ .twoSources :=
    (hnone.next (.addSource .fresh) trivial).next (.addSource .fresh) trivial
  have hopened := hsources.enrolled rfl rfl rfl (hfirst x hx)
  exact hopened.enrolled (by decide +kernel) (by decide +kernel) rfl (hsecond x hx)

theorem reaches_twoStrings {x : Nat} (hx : x < 2) :
    Reaches (.pair x) ⟨.fresh KLisp.sample, .harried⟩ .twoStrings := by
  have hsecond : ∀ x < 2, ((Network.twoSessions.listen 0 Network.quoter).schedule
      [.request (.source (.push 1 "\"cd".toList))]).keepsSettling (.pair x) 60 = true := by
    decide +kernel
  have hfirst : ∀ x < 2, (Network.oneString.schedule
      [.request (.source (.push 0 "(".toList))]).keepsSettling (.pair x) 60 = true := by
    decide +kernel
  have hlistened := (reaches_twoSessions hx).next (.listen 0 Network.quoter) trivial
  have hpushed : Reaches (.pair x) ⟨.fresh KLisp.sample, .harried⟩ .oneString :=
    hlistened.ask (by decide +kernel) (hsecond x hx)
  exact hpushed.ask (by decide +kernel) (hfirst x hx)

end SharedNetwork

/-- Each of two sessions is in the string that it is in without the other. The listener of the
first one has begun its string, and the second one was in its own before. -/
theorem sessions_isolated_sample :
    (Network.twoStrings.session? 0).map Session.summary = some (.stepping, 1, ["ab".toList]) ∧
      (Network.twoStrings.session? 1).map Session.summary = some (.stepping, 0, ["cd".toList]) ∧
      ∀ x < 2, ∃ (trace part : List (Event Token)) (memory : SharedCache)
        (w' : SharedNetwork Token StringBody),
        SharedNetwork.Splits (.pair x) ⟨.fresh KLisp.sample, .harried⟩ trace part
            ⟨.twoStrings, memory⟩ ∧
          SharedNetwork.Runs ⟨.freshAt KLisp.sample x, ⟨.fresh, fun _ => ⟨[], []⟩⟩⟩ part w' ∧
          w'.network.session? x = Network.twoStrings.session? x := by
  refine ⟨by decide +kernel, by decide +kernel, fun x hx => ?_⟩
  obtain ⟨trace, part, memory, hsplits, -⟩ := SharedNetwork.reaches_twoStrings hx
  obtain ⟨⟨w', hruns⟩, hsame⟩ := sessions_isolated hsplits [] fun _ => ⟨[], []⟩
  exact ⟨trace, part, memory, w', hsplits, hruns, (hsame w' hruns).1⟩

end DerivativeLexer
