import DerivativeLexer.Proofs.Lexer.Guarded
import DerivativeLexer.Proofs.Session.Stages

/-! # Sessions stay within the guards

Whatever happens in a network, a session whose turn it is has its place in the text of its source.
So it moves as it would with guards, however the table is made: also when an action names a state
that was never declared. -/

namespace DerivativeLexer

open Network

variable {τ π : Type}

/-- A session never asks for a head or a tail at a plugged place, fires nothing that no rule has or
that the table does not list, and takes no difference that would be negative: in every network that
comes about, the next move of a session is the same with guards as without. -/
theorem guards_hold {l : Lexer τ π} {n : Network τ π} {x : Nat} {σ : Session τ π}
    {rest : List (Task τ)} (h : n.Reachable l) (hσ : n.session? x = some σ)
    (hagenda : n.agenda = .drain x :: rest) :
    σ.engine.guardedMove l.rules l.config ⟨(n.source? σ.input).getD .fresh, σ.reader⟩ =
      .ok (σ.engine.move l.rules l.config ⟨(n.source? σ.input).getD .fresh, σ.reader⟩) := by
  have hstage := h.stage hσ
  rw [hagenda, h.lexer_eq] at hstage
  obtain ⟨-, -, hreading⟩ := hstage.of_drain
  have hplaced : Engine.Placed l.rules
      (⟨(n.source? σ.input).getD .fresh, σ.reader⟩ : Feed Char).reader σ.engine := hreading.placed
  obtain ⟨read, ahead, htracks⟩ := hplaced.tracks
  exact htracks.guardedMove_eq l.config

/-- The only rule goes on in a state that the table does not have. -/
def Lexer.astray : Lexer String Unit where
  rules := ⟨[⟨"main", [⟨Language.lit "ab", do
    Act.emit "ab"
    pure ⟨7⟩⟩]⟩]⟩
  config := ⟨some 5, 16⟩
  productive := by decide +kernel

/-- A session has gone astray, and it is its turn. -/
def Network.straying : Network String Unit :=
  ((((fresh .astray).addSource ⟨"abc".toList, 0, false⟩).2.launch 0 0
    (.of ⟨"abc".toList, 0, false⟩))).settle 5

theorem Network.reachable_straying : straying.Reachable .astray := by
  obtain ⟨later, hlater⟩ := exists_runs_settle (((fresh .astray).addSource
    ⟨"abc".toList, 0, false⟩).2.launch 0 0 (.of ⟨"abc".toList, 0, false⟩)) 5
  have hlaunch : (fresh .astray).Runs _ (((fresh .astray).addSource
      ⟨"abc".toList, 0, false⟩).2.launch 0 0 (.of ⟨"abc".toList, 0, false⟩)) :=
    (Runs.one (.addSource _)).snoc (.launch 0 rfl ⟨Nat.le_refl _, Nat.le_refl _⟩)
  exact ⟨_, hlaunch.trans hlater⟩

theorem guards_hold_sample : ∃ σ, straying.session? 0 = some σ ∧
    straying.agenda = [.drain 0] ∧ σ.engine.matching.origin = ⟨7⟩ ∧
    σ.engine.guardedMove Lexer.astray.rules Lexer.astray.config
        ⟨(straying.source? σ.input).getD .fresh, σ.reader⟩ =
      .ok (σ.engine.move Lexer.astray.rules Lexer.astray.config
        ⟨(straying.source? σ.input).getD .fresh, σ.reader⟩) := by
  obtain ⟨σ, hσ⟩ : ∃ σ, straying.session? 0 = some σ :=
    ⟨_, (Option.some_get (by decide +kernel)).symm⟩
  have hagenda : straying.agenda = [.drain 0] := by decide +kernel
  have horigin : (straying.session? 0).map (·.engine.matching.origin) = some ⟨7⟩ := by
    decide +kernel
  rw [hσ, Option.map_some, Option.some_inj] at horigin
  exact ⟨σ, hσ, hagenda, horigin, guards_hold reachable_straying hσ hagenda⟩

end DerivativeLexer
