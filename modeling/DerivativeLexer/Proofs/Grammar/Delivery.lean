import DerivativeLexer.Proofs.Grammar.Lossless
import DerivativeLexer.Proofs.Session.Service

/-! # Text for the grammars

The actions of both grammars emit tokens and close the output, and ask nothing of a source. So a
session with one of the grammars can be given a text in any pieces. -/

namespace DerivativeLexer

open DerivativeLexer.Language

variable {τ π : Type}

/-- The rule asks nothing of a source. -/
def Rule.AsksNothing (rule : Rule τ π) : Prop :=
  ∀ matched payloads r, .request r ∉ (rule.action.perform matched payloads).2.effects

namespace Layers

variable {g : Layers π} {pattern : Language} {rule : Rule Token π}

theorem asksNothing_silent (h : ∀ m payloads, (rule.action.perform m payloads).2.effects = []) :
    rule.AsksNothing := by
  intro m payloads r hr
  rw [h] at hr
  cases hr

theorem asksNothing_emit
    (h : ∀ m payloads, ∃ token, (rule.action.perform m payloads).2.effects = [.emit token]) :
    rule.AsksNothing := by
  intro m payloads r hr
  obtain ⟨token, htoken⟩ := h m payloads
  rw [htoken] at hr
  cases List.mem_singleton.1 hr

theorem asksNothing_end (s : StateId) :
    (⟨.endOfInput, do Act.close; pure s⟩ : Rule Token π).AsksNothing :=
  fun _ _ _ hr => nomatch List.mem_singleton.1 hr

theorem asksNothing_emitChar (s : StateId) (lead : Nat) :
    (⟨pattern, do Grammar.emitChar lead; pure s⟩ : Rule Token π).AsksNothing := by
  intro m payloads r hr
  have hemit : .request r ∈ ((Grammar.emitChar lead).perform m payloads).2.effects := hr
  rw [Grammar.emitChar, Act.perform_text_bind] at hemit
  cases hchar : m.text[lead]? with
  | none =>
    rw [hchar] at hemit
    cases hemit
  | some c =>
    rw [hchar] at hemit
    cases List.mem_singleton.1 hemit

theorem asksNothing_closeString :
    (⟨pattern, g.strings.update (Grammar.closeString g.main)⟩ : Rule Token π).AsksNothing := by
  refine asksNothing_emit fun m payloads => ?_
  rw [g.strings.perform_update rfl]
  exact ⟨_, rfl⟩

theorem asksNothing_growString (meaning : List Char → List Char) :
    (⟨pattern, g.strings.update (Grammar.growString g.strings.state meaning)⟩ :
      Rule Token π).AsksNothing := by
  refine asksNothing_silent fun m payloads => ?_
  rw [g.strings.perform_update rfl]

end Layers

section

variable {pattern : Language} {slot : Slot Scheme.Payload Nat}

theorem Scheme.asksNothing_open :
    (⟨pattern, slot.update (openBlock slot.state)⟩ : Rule Token Payload).AsksNothing := by
  refine Layers.asksNothing_silent fun m payloads => ?_
  rw [slot.perform_update rfl]

theorem Scheme.asksNothing_close (main : StateId) :
    (⟨pattern, slot.update (closeBlock main slot.state)⟩ : Rule Token Payload).AsksNothing := by
  refine Layers.asksNothing_silent fun m payloads => ?_
  rcases Nat.lt_or_ge 1 (slot.read payloads) with hmore | hlast
  · rw [slot.perform_update (by rw [closeBlock_of_lt hmore]; rfl)]
  · rw [slot.perform_update (by rw [closeBlock_of_le hlast]; rfl)]

end

/-! ### The grammars -/

open Layers

theorem KLisp.asksNothing (s : StateId) : ∀ rule ∈ rules.rules s, rule.AsksNothing := by
  obtain ⟨_ | _ | n⟩ := s
  · refine List.forall_mem_cons.2 ⟨asksNothing_silent fun _ _ => rfl, ?_⟩
    iterate 4 refine List.forall_mem_cons.2 ⟨asksNothing_emit fun _ _ => ⟨_, rfl⟩, ?_⟩
    refine List.forall_mem_cons.2 ⟨asksNothing_end _, ?_⟩
    iterate 2 refine List.forall_mem_cons.2 ⟨asksNothing_silent fun _ _ => rfl, ?_⟩
    iterate 4 refine List.forall_mem_cons.2 ⟨asksNothing_emit fun _ _ => ⟨_, rfl⟩, ?_⟩
    exact List.forall_mem_singleton.2 (asksNothing_emitChar _ 1)
  · refine List.forall_mem_cons.2 ⟨layers.asksNothing_closeString, ?_⟩
    iterate 4 refine List.forall_mem_cons.2 ⟨layers.asksNothing_growString _, ?_⟩
    exact List.forall_mem_singleton.2 (layers.asksNothing_growString _)
  · exact fun _ h => nomatch h

theorem Scheme.asksNothing (s : StateId) : ∀ rule ∈ rules.rules s, rule.AsksNothing := by
  obtain ⟨_ | _ | _ | n⟩ := s
  · iterate 2 refine List.forall_mem_cons.2 ⟨asksNothing_silent fun _ _ => rfl, ?_⟩
    -- The marks, the brackets, the point and the truth values.
    iterate 14 refine List.forall_mem_cons.2 ⟨asksNothing_emit fun _ _ => ⟨_, rfl⟩, ?_⟩
    refine List.forall_mem_cons.2 ⟨asksNothing_end _, ?_⟩
    iterate 2 refine List.forall_mem_cons.2 ⟨asksNothing_silent fun _ _ => rfl, ?_⟩
    refine List.forall_mem_cons.2 ⟨asksNothing_emitChar _ 2, ?_⟩
    refine List.forall_mem_cons.2 ⟨asksNothing_emit fun _ _ => ⟨_, rfl⟩, ?_⟩
    exact List.forall_mem_singleton.2 (asksNothing_emit fun _ _ => ⟨_, rfl⟩)
  · refine List.forall_mem_cons.2 ⟨asksNothing_open, ?_⟩
    refine List.forall_mem_cons.2 ⟨asksNothing_silent fun _ _ => rfl, ?_⟩
    exact List.forall_mem_singleton.2 (asksNothing_close _)
  · refine List.forall_mem_cons.2 ⟨layers.asksNothing_closeString, ?_⟩
    iterate 4 refine List.forall_mem_cons.2 ⟨layers.asksNothing_growString _, ?_⟩
    exact List.forall_mem_singleton.2 (layers.asksNothing_growString _)
  · exact fun _ h => nomatch h

/-- A session with one of the grammars can be given any text in any pieces. -/
theorem Grammar.exists_streamed_pieces (first : List Char) (pieces : List (List Char))
    (closing : Bool) :
    (∀ l : Lexer Token StringBody, l.rules = KLisp.rules →
        ∃ n σ, Streamed l 0 0 0 ⟨first ++ pieces.flatten, 0, closing⟩ n σ ∧ n.Rests) ∧
      ∀ l : Lexer Token Scheme.Payload, l.rules = Scheme.rules →
        ∃ n σ, Streamed l 0 0 0 ⟨first ++ pieces.flatten, 0, closing⟩ n σ ∧ n.Rests := by
  refine ⟨fun l hrules => ?_, fun l hrules => ?_⟩
  · exact exists_streamed l (fun s rule hrule => KLisp.asksNothing s rule (hrules ▸ hrule)) first
      pieces closing
  · exact exists_streamed l (fun s rule hrule => Scheme.asksNothing s rule (hrules ▸ hrule)) first
      pieces closing

end DerivativeLexer
