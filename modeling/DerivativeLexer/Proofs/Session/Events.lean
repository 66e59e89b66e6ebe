import DerivativeLexer.Proofs.Lexer.Silenced
import DerivativeLexer.Proofs.Session.Service

/-! # What can happen in a network

A network is worked on task by task, and it is used from outside. A listener belongs to somebody
who may do anything when it is told something, so it is not held to what its reaction says: it
may ask for whatever it likes. Nothing is asked from outside before the call before has returned,
but sources, subscribers and listeners come at any time, and a source may be read by others than
the sessions. -/

namespace DerivativeLexer

variable {τ π : Type}

inductive Event (τ : Type) where
  /-- The first task on the agenda is done, and a listener that it tells something asks for
  `asked`, besides what its reaction says. -/
  | task (task : Task τ) (asked : List Request)
  | call (r : Request)
  | launch (input offset : Nat) (reader : Reader Char)
  | drop (session : Nat)
  | addSource (source : Source Char)
  /-- Somebody else reads from a source. -/
  | disturb (input : Nat) (source : Source Char)
  | subscribe (input : Nat) (u : Subscriber)
  | listen (session : Nat) (r : Reaction τ)
  | takeNotices

namespace Network

/-- The task tells a listener something, on an input source or on the output of a session. -/
def Listens (n : Network τ π) : Task τ → Prop
  | .tellInput t k _ => ∃ r, n.inputs[t]?.bind (·.subscribers[k]?) = some (.listener r)
  | .tellOutput y k _ => ∃ r, (n.session? y).bind (·.listeners[k]?) = some r
  | _ => False

inductive Happens (n : Network τ π) : Event τ → Network τ π → Prop
  | task {task : Task τ} {rest : List (Task τ)} {asked : List Request}
      (hagenda : n.agenda = task :: rest) (hasked : asked = [] ∨ n.Listens task) :
      Happens n (.task task asked) (n.step.schedule (asked.map .request))
  | call (r : Request) (hagenda : n.agenda = []) :
      Happens n (.call r) (n.schedule [.request r])
  | launch (t : Nat) {offset : Nat} {reader : Reader Char} (hagenda : n.agenda = [])
      (hreached : reader.start ≤ offset ∧ offset ≤ reader.reach) :
      Happens n (.launch t offset reader) (n.launch t offset reader)
  | drop (y : Nat) (hagenda : n.agenda = []) : Happens n (.drop y) (n.drop y)
  | addSource (source : Source Char) : Happens n (.addSource source) (n.addSource source).2
  | disturb (t : Nat) (source : Source Char) :
      Happens n (.disturb t source) (n.modifySource t fun _ => source)
  | subscribe (t : Nat) (u : Subscriber) : Happens n (.subscribe t u) (n.subscribe t u)
  | listen (y : Nat) (r : Reaction τ) : Happens n (.listen y r) (n.listen y r)
  | takeNotices : Happens n .takeNotices n.takeNotices.2

/-- What happens one after the other. -/
inductive Runs (n : Network τ π) : List (Event τ) → Network τ π → Prop
  | refl : Runs n [] n
  | snoc {trace : List (Event τ)} {m m' : Network τ π} {e : Event τ} (h : Runs n trace m)
      (hnext : m.Happens e m') : Runs n (trace ++ [e]) m'

/-- The network comes about from an empty one. -/
def Reachable (l : Lexer τ π) (n : Network τ π) : Prop := ∃ trace, (fresh l).Runs trace n

section

variable {n m k : Network τ π} {trace trace' : List (Event τ)} {e : Event τ} {l : Lexer τ π}

theorem Runs.one (h : n.Happens e m) : n.Runs [e] m := .snoc .refl h

theorem Runs.trans (h : n.Runs trace m) (h' : m.Runs trace' k) : n.Runs (trace ++ trace') k := by
  induction h' with
  | refl =>
    rw [List.append_nil]
    exact h
  | snoc _ hnext ih =>
    rw [← List.append_assoc]
    exact .snoc ih hnext

theorem Reachable.runs (h : n.Reachable l) (hruns : n.Runs trace m) : m.Reachable l := by
  obtain ⟨before, hbefore⟩ := h
  exact ⟨_, hbefore.trans hruns⟩

theorem Happens.lexer_eq (h : n.Happens e m) : m.lexer = n.lexer := by
  cases h with
  | task hagenda hasked => exact congrArg Wiring.lexer wiring_step
  | _ => rfl

theorem Runs.lexer_eq (h : n.Runs trace m) : m.lexer = n.lexer := by
  induction h with
  | refl => rfl
  | snoc _ hnext ih => exact hnext.lexer_eq.trans ih

theorem Reachable.lexer_eq (h : n.Reachable l) : n.lexer = l := h.choose_spec.lexer_eq

/-! ### Operations are runs -/

theorem runs_step (hagenda : n.agenda ≠ []) : ∃ task, n.Runs [.task task []] n.step := by
  obtain ⟨task, rest, htask⟩ := List.exists_cons_of_ne_nil hagenda
  exact ⟨task, .one (.task htask (.inl rfl))⟩

theorem exists_runs_settle (n : Network τ π) (fuel : Nat) :
    ∃ trace, n.Runs trace (n.settle fuel) := by
  induction fuel generalizing n with
  | zero => exact ⟨[], .refl⟩
  | succ fuel ih =>
    rw [settle]
    split_ifs with hagenda
    · exact ⟨[], .refl⟩
    · rw [List.isEmpty_iff] at hagenda
      obtain ⟨task, hstep⟩ := runs_step hagenda
      obtain ⟨trace, hlater⟩ := ih n.step
      exact ⟨_, hstep.trans hlater⟩

theorem exists_runs_ask (hagenda : n.agenda = []) (r : Request) (fuel : Nat) :
    ∃ trace, n.Runs trace (n.ask r fuel) := by
  obtain ⟨trace, hlater⟩ := (n.schedule [.request r]).exists_runs_settle fuel
  exact ⟨_, (Runs.one (.call r hagenda)).trans hlater⟩

theorem exists_runs_start (hagenda : n.agenda = []) (t skip fuel : Nat) :
    ∃ trace, n.Runs trace (n.start t skip fuel).2 := by
  obtain ⟨source, hsource⟩ : ∃ source, (n.source? t).getD .fresh = source := ⟨_, rfl⟩
  rcases hskip : skipFrom ⟨source, .of source⟩ source.pulled skip with ⟨passed, feed⟩
  simp only [start, hsource, hskip]
  cases passed with
  | error offset => exact ⟨_, .one (.disturb t _)⟩
  | ok offset =>
    have hreached : feed.Reached offset :=
      reached_skipFrom ⟨Nat.le_refl _, Nat.le_refl _⟩ hskip
    obtain ⟨trace, hlater⟩ := ((n.modifySource t fun _ => feed.source).launch t offset
      feed.reader).exists_runs_settle fuel
    exact ⟨_, ((Runs.one (.disturb t feed.source)).snoc (.launch t hagenda hreached)).trans hlater⟩

theorem exists_runs_openSession (hagenda : n.agenda = []) {t skip fuel : Nat}
    (hreturns : (n.start t skip fuel).2.agenda = []) :
    ∃ trace, n.Runs trace (n.openSession t skip fuel).2 := by
  obtain ⟨trace, hstart⟩ := exists_runs_start hagenda t skip fuel
  unfold openSession
  split
  next offset m heq =>
    rw [heq] at hstart
    exact ⟨trace, hstart⟩
  next x m heq =>
    rw [heq] at hstart hreturns
    unfold enroll
    split
    · exact ⟨_, hstart.snoc (.drop x hreturns)⟩
    · exact ⟨_, hstart.snoc (.subscribe t (.session x))⟩

end

def echoing : Network String Unit := (((fresh .echo).addSource .fresh).2.openSession 0 0 60).2

theorem reachable_echoing : echoing.Reachable .echo := by
  obtain ⟨trace, hruns⟩ : ∃ trace, ((fresh .echo).addSource .fresh).2.Runs trace echoing :=
    exists_runs_openSession rfl (by decide +kernel)
  exact ⟨_, (Runs.one (.addSource _)).trans hruns⟩

end Network

end DerivativeLexer
