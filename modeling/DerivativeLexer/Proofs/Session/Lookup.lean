import DerivativeLexer.Proofs.Lexer.Lookup
import DerivativeLexer.Session.Network

/-! # Sessions with unions looked up

The only task of a network that derives anything is the next move of a session. With the unions
of these moves looked up in a memory that everybody else uses as well, a network settles in the
same state. The results on languages, patterns, texts and sessions are brought together at the
end. -/

namespace DerivativeLexer

variable {τ π σ : Type}

/-! ### Settling -/

namespace Network

/-- Carries out a move of a session that reads the given input. -/
def obey (n : Network τ π) (x input : Nat) : Move τ π → Network τ π
  | .rest => n.schedule [.release x]
  | .read engine feed =>
    ((n.modifySource input fun _ => feed.source).modifySession x fun s =>
      { s with
        engine := engine
        reader := feed.reader
        status := s.status.afterRead engine.replaying }).schedule [.drain x]
  | .fire firing engine replays =>
    (n.modifySession x fun s => { s with engine := engine }).schedule
      (firing.effects.map (effectTask x) ++ [.proceed x replays])
  | .last firing engine =>
    (n.modifySession x fun s => { s with engine := engine }).schedule
      (firing.effects.map (effectTask x) ++ [.finish x .terminated])
  | .fail error feed =>
    ((n.modifySource input fun _ => feed.source).modifySession x fun s =>
      { s with reader := feed.reader }).schedule [.finish x (.failed error)]

theorem drain_eq_obey (n : Network τ π) (x : Nat) :
    n.drain x =
      match n.session? x with
      | none => n
      | some s =>
        if !s.status.isLive then n.schedule [.release x]
        else if s.cancelled then n.schedule [.finish x .cancelled]
        else
          n.obey x s.input
            (s.engine.move n.lexer.rules n.lexer.config
              ⟨(n.source? s.input).getD .fresh, s.reader⟩) := by
  unfold drain
  cases n.session? x with
  | none => rfl
  | some s =>
    dsimp only
    split
    · rfl
    split
    · rfl
    cases s.engine.move n.lexer.rules n.lexer.config
        ⟨(n.source? s.input).getD .fresh, s.reader⟩ <;> rfl

variable (union : Language → Language → StateM σ Language)

def drainVia (n : Network τ π) (x : Nat) : StateM σ (Network τ π) :=
  match n.session? x with
  | none => pure n
  | some s =>
    if !s.status.isLive then pure (n.schedule [.release x])
    else if s.cancelled then pure (n.schedule [.finish x .cancelled])
    else do
      let move ← s.engine.moveVia union n.lexer.rules n.lexer.config
        ⟨(n.source? s.input).getD .fresh, s.reader⟩
      pure (n.obey x s.input move)

def performVia (n : Network τ π) : Task τ → StateM σ (Network τ π)
  | .drain x => n.drainVia union x
  | task => pure (n.perform task)

def stepVia (n : Network τ π) : StateM σ (Network τ π) :=
  match n.agenda with
  | [] => pure n
  | task :: rest => { n with agenda := rest }.performVia union task

def settleVia (n : Network τ π) : Nat → StateM σ (Network τ π)
  | 0 => pure n
  | fuel + 1 =>
    if n.agenda.isEmpty then pure n
    else do
      let next ← n.stepVia union
      next.settleVia fuel

section

variable {union} {I : σ → Prop} (hunion : ∀ a b, Yields I (union a b) (a.or b))

include hunion

theorem yields_drainVia (n : Network τ π) (x : Nat) :
    Yields I (n.drainVia union x) (n.drain x) := by
  rw [drain_eq_obey]
  unfold drainVia
  cases n.session? x with
  | none => exact .pure n
  | some s =>
    refine .ite (fun _ => .pure _) fun _ => .ite (fun _ => .pure _) fun _ => ?_
    exact (s.engine.yields_moveVia hunion _ _ _).bind (.pure _)

theorem yields_stepVia (n : Network τ π) : Yields I (n.stepVia union) n.step := by
  unfold stepVia step
  cases n.agenda with
  | nil => exact .pure n
  | cons task rest =>
    cases task with
    | drain x => exact yields_drainVia hunion _ x
    | request r => exact .pure _
    | tellInput s k text => exact .pure _
    | tellOutput x k items => exact .pure _
    | emit x item => exact .pure _
    | close x => exact .pure _
    | proceed x replays => exact .pure _
    | finish x status => exact .pure _
    | release x => exact .pure _

theorem yields_settleVia (n : Network τ π) (fuel : Nat) :
    Yields I (n.settleVia union fuel) (n.settle fuel) := by
  induction fuel generalizing n with
  | zero => exact .pure n
  | succ fuel ih => exact .ite (fun _ => .pure n) fun _ => (yields_stepVia hunion n).bind (ih _)

end

end Network

/-! ### Transparency -/

/-- Whatever was done with the memory before, its entries are the unions of their keys and there
are no more of them than fit, and the combinators that look unions up give what the plain ones
give. They still do, and so do the building of patterns and tables, the lexing of texts and the
settling of a network, when others use, clear and resize the memory around every single
look-up. -/
theorem union_memory_transparent :
    (∀ uses : List UnionCache.Use,
      (∀ a b value, ((a, b), value) ∈ (UnionCache.fresh.useAll uses).entries →
        value = a.or b) ∧
      (UnionCache.fresh.useAll uses).size ≤ (UnionCache.fresh.useAll uses).capacity) ∧
    (∀ (uses : List UnionCache.Use) (a b : Language) (x : Symbol) (word : List Symbol),
      (((a.orCached b).run (UnionCache.fresh.useAll uses)).1 = a.or b) ∧
      ((a.optionalCached.run (UnionCache.fresh.useAll uses)).1 = a.optional) ∧
      (((a.deriveCached x).run (UnionCache.fresh.useAll uses)).1 = a.derive x) ∧
      (((a.deriveWordCached word).run (UnionCache.fresh.useAll uses)).1 = a.deriveWord word)) ∧
    (∀ (uses : List UnionCache.Use) (others : Nat → Disturbance),
      let shared : SharedCache := ⟨UnionCache.fresh.useAll uses, others⟩
      (∀ a b : Language, ((a.orShared b).run shared).1 = a.or b) ∧
      (∀ a : Language, ((a.optionalVia Language.orShared).run shared).1 = a.optional) ∧
      (∀ (a : Language) (word : List Symbol),
        ((a.deriveWordVia Language.orShared word).run shared).1 = a.deriveWord word) ∧
      (∀ e : Expression, ((e.buildVia Language.orShared).run shared).1 = e.build) ∧
      (∀ (d : Draft τ π) (config : LexerConfig) (text : List Char),
        ((d.tokenizeVia Language.orShared config text).run shared).1 = d.tokenize config text) ∧
      (∀ (l : Lexer τ π) (text : List Char),
        ((l.tokenizeVia Language.orShared text).run shared).1 = l.tokenize text) ∧
      (∀ (n : Network τ π) (fuel : Nat),
        ((n.settleVia Language.orShared fuel).run shared).1 = n.settle fuel)) := by
  have hsound (uses : List UnionCache.Use) : (UnionCache.fresh.useAll uses).Sound :=
    UnionCache.sound_fresh.useAll uses
  refine ⟨fun uses => ?_, fun uses a b x word => ?_, fun uses others => ?_⟩
  · exact ⟨fun a b value h => (hsound uses).union_eq _ h, (hsound uses).size_le⟩
  · have hunion := Language.yields_orCached
    rw [Language.optionalCached_eq, Language.deriveCached_eq, Language.deriveWordCached_eq]
    exact ⟨(hunion a b _ (hsound uses)).1,
      (Language.yields_optionalVia hunion a _ (hsound uses)).1,
      (Language.yields_deriveVia hunion x a _ (hsound uses)).1,
      (Language.yields_deriveWordVia hunion a word _ (hsound uses)).1⟩
  · intro shared
    have hunion := Language.yields_orShared
    have hshared : shared.Sound := hsound uses
    exact ⟨fun a b => (hunion a b shared hshared).1,
      fun a => (Language.yields_optionalVia hunion a shared hshared).1,
      fun a word => (Language.yields_deriveWordVia hunion a word shared hshared).1,
      fun e => (e.yields_buildVia hunion shared hshared).1,
      fun d config text => (d.yields_tokenizeVia hunion config text shared hshared).1,
      fun l text => (l.yields_tokenizeVia hunion text shared hshared).1,
      fun n fuel => (n.yields_settleVia hunion fuel shared hshared).1⟩

end DerivativeLexer
