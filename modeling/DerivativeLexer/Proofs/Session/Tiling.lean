import DerivativeLexer.Language.Pattern
import DerivativeLexer.Proofs.Session.Moving

/-! # The matches of a session tile its input

Whatever happens while a session is at work, the matches that it fires lie one behind the other in
what has come to its source, from the place where the session was launched. If the session reaches
the end of its input, they are all of it. -/

namespace DerivativeLexer

variable {τ π : Type}

/-- The characters of a source from an offset on, as long as nobody has read them. -/
def Source.textFrom (s : Source Char) (offset : Nat) : List Char := s.queue.drop (offset - s.pulled)

theorem Feed.Holds.textFrom_eq {f : Feed Char} {total : Source Char} (h : f.Holds total)
    (offset : Nat) : f.textFrom offset = total.textFrom offset := by
  rw [Feed.textFrom, Source.textFrom, h.text_eq, h.start_eq]

namespace Network

/-- Actions and listeners may add to the source of a session, the session may read again what it
has read, be cancelled or dropped: its matches lie one behind the other in what came to the source,
from the place `k` on where it was launched, and each of them was handed to the action of its rule.
When the session has terminated, they are all that came. -/
theorem matches_tile {l : Lexer τ π} {n m : Network τ π} {s k : Nat} {feed : Feed Char}
    {trace : List (Event τ)} {moves : List (Move τ π)} (h : Launches l n s k feed)
    (hmoved : (n.launch s k feed.reader).Moved n.sessions.size trace moves m)
    (hspares : ∀ e ∈ trace, e.Spares s) :
    Tiles k ((Event.delivered s feed.whole trace).textFrom k)
        (Event.delivered s feed.whole trace).closed (Move.matched moves) ∧
      (∀ firing ∈ Move.firings moves, ∃ payloads,
        l.rules.fire? firing.state firing.rule firing.matched payloads = some firing) ∧
      ∀ σ, m.session? n.sessions.size = some σ → σ.status = .terminated →
        (Move.matched moves).flatMap (·.text) =
          (Event.delivered s feed.whole trace).textFrom k := by
  obtain ⟨⟨now, f, hcourse, hholds⟩, hfollows⟩ := h.moved hmoved hspares
  rw [← hholds.textFrom_eq, ← hholds.closed_eq]
  refine ⟨hcourse.tiles, hcourse.performed, fun σ hσ hstatus => ?_⟩
  obtain ⟨firing, e, hlast⟩ := (hfollows σ hσ).ended (.inl hstatus)
  exact (hcourse.covers hlast).2

/-! ### Calls -/

/-- The tasks that `settle` does, as events. -/
def settling (n : Network τ π) : Nat → List (Event τ)
  | 0 => []
  | fuel + 1 =>
    match n.agenda with
    | [] => []
    | task :: _ => .task task [] :: n.step.settling fuel

/-- The moves that a session makes while `settle` does its tasks. -/
def movesOf (x : Nat) (n : Network τ π) : Nat → List (Move τ π)
  | 0 => []
  | fuel + 1 =>
    match n.agenda with
    | [] => []
    | task :: _ => (n.move? x (.task task [])).toList ++ n.step.movesOf x fuel

theorem Moved.settle {n m : Network τ π} {x : Nat} {trace : List (Event τ)}
    {moves : List (Move τ π)} (h : n.Moved x trace moves m) (fuel : Nat) :
    n.Moved x (trace ++ m.settling fuel) (moves ++ m.movesOf x fuel) (m.settle fuel) := by
  induction fuel generalizing m trace moves with
  | zero => simpa [settling, movesOf, Network.settle] using h
  | succ fuel ih =>
    rw [settling, movesOf, Network.settle]
    cases hagenda : m.agenda with
    | nil => simpa using h
    | cons task rest =>
      have hstep : m.Happens (.task task []) m.step := .task hagenda (.inl rfl)
      simpa using ih (h.snoc hstep)

/-- A task is done by somebody who is there already. -/
theorem spares_settling (n : Network τ π) (s fuel : Nat) : ∀ e ∈ n.settling fuel, e.Spares s := by
  induction fuel generalizing n with
  | zero => simp [settling]
  | succ fuel ih =>
    rw [settling]
    cases n.agenda with
    | nil => simp
    | cons task rest =>
      intro e he
      rcases List.mem_cons.1 he with rfl | he
      · trivial
      · exact ih n.step e he

end Network

/-! ### An action that adds to the input -/

/-- The letter `p` brings another `a` and the end of the input. -/
def Lexer.prompting : Lexer String Unit where
  rules := ⟨[⟨"main", [
    ⟨Language.lit "p", do
      Act.request (.push 0 ['a'])
      Act.request (.close 0)
      pure RuleTable.initial⟩,
    ⟨Language.lit "a", pure RuleTable.initial⟩,
    ⟨Language.lit "aab", pure RuleTable.initial⟩,
    ⟨Language.endOfInput, pure RuleTable.initial⟩]⟩]⟩
  config := .standard
  productive := by decide +kernel

namespace Network

def prompted : Feed Char := ⟨⟨"pa".toList, 1, false⟩, ⟨0, #['x']⟩⟩

def prompting : Network String Unit := ((fresh .prompting).addSource prompted.source).2

theorem launches_prompting : Launches .prompting prompting 0 1 prompted where
  reachable := ⟨_, .one (.addSource _)⟩
  agenda_eq := rfl
  source_eq := rfl
  readers := fun y ρ hρ => by cases hρ
  reached := ⟨Nat.zero_le 1, Nat.le_refl 1⟩

/-- Of `aa` the engine reads both letters before it goes back, and the end of the input is a match
of its own. -/
theorem matches_tile_sample : ∃ (trace : List (Event String)) (moves : List (Move String Unit))
    (σ : Session String Unit),
    (prompting.launch 0 1 prompted.reader).Moved 0 trace moves
        ((prompting.launch 0 1 prompted.reader).settle 60) ∧
      ((prompting.launch 0 1 prompted.reader).settle 60).session? 0 = some σ ∧
      σ.status = .terminated ∧
      (Move.matched moves).map (fun m => (m.text, m.span.start.offset)) =
        [(['p'], 1), (['a'], 2), (['a'], 3), ([], 4)] ∧
      Tiles 1 "paa".toList true (Move.matched moves) ∧
      (Move.matched moves).flatMap (·.text) = "paa".toList := by
  have hmoved := (Moved.refl (n := prompting.launch 0 1 prompted.reader) (x := 0)).settle 60
  obtain ⟨σ, hσ⟩ : ∃ σ, ((prompting.launch 0 1 prompted.reader).settle 60).session? 0 = some σ :=
    ⟨_, (Option.some_get (by decide +kernel)).symm⟩
  have hended : (((prompting.launch 0 1 prompted.reader).settle 60).session? 0).map (·.status) =
      some .terminated := by decide +kernel
  rw [hσ, Option.map_some, Option.some_inj] at hended
  have htotal : Event.delivered 0 prompted.whole
      ([] ++ (prompting.launch 0 1 prompted.reader).settling 60) = ⟨"xpaa".toList, 0, true⟩ := by
    decide +kernel
  obtain ⟨htiles, -, hcovers⟩ := matches_tile launches_prompting hmoved
    (spares_settling (prompting.launch 0 1 prompted.reader) 0 60)
  rw [htotal] at htiles hcovers
  exact ⟨_, _, σ, hmoved, hσ, hended, by decide +kernel, htiles, hcovers σ hσ hended⟩

end Network

end DerivativeLexer
