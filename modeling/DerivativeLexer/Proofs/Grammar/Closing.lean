import DerivativeLexer.Grammar.KLisp
import DerivativeLexer.Grammar.Scheme
import DerivativeLexer.Proofs.Lexer.Moves

/-! # Who closes the output

In both grammars only the rule that reads the end of the input closes the output, and it does
nothing else. That is a fact about the programs that declare the tables, and it is shown along
them: an action closes nothing if its parts close nothing, and a program declares only rules of
some kind if its parts do. -/

namespace DerivativeLexer

variable {τ π : Type}

/-! ### Actions that close nothing -/

namespace Act

/-- The output is not closed, no matter what was sent before. -/
def LeavesOpen {α : Type} (act : Act τ π α) : Prop :=
  ∀ m o, .close ∉ o.effects → .close ∉ ((act.run m).run o).2.effects

section

variable {α β : Type} {act : Act τ π α} {f : α → Act τ π β}

theorem leavesOpen_pure (a : α) : (pure a : Act τ π α).LeavesOpen := fun _ _ h => h

theorem LeavesOpen.bind (hact : act.LeavesOpen) (hf : ∀ a, (f a).LeavesOpen) :
    (act >>= f).LeavesOpen := fun m o h => hf _ m _ (hact m o h)

theorem leavesOpen_text : (text : Act τ π (List Char)).LeavesOpen := fun _ _ h => h

theorem leavesOpen_span : (span : Act τ π Span).LeavesOpen := fun _ _ h => h

theorem leavesOpen_emit (item : τ) : (emit item : Act τ π Unit).LeavesOpen := by
  intro m o h hmem
  rcases List.mem_append.1 hmem with hmem | hmem
  · exact h hmem
  · cases List.mem_singleton.1 hmem

theorem LeavesOpen.perform (h : act.LeavesOpen) (matched : Matched) (payloads : Payloads π) :
    .close ∉ (act.perform matched payloads).2.effects :=
  h matched ⟨[], payloads⟩ List.not_mem_nil

end

end Act

namespace Slot

variable {σ : Type} (slot : Slot π σ)

theorem leavesOpen_enter (x : σ) : (slot.enter x : Act τ π StateId).LeavesOpen := fun _ _ h => h

theorem leavesOpen_putBack (x : σ) : (slot.putBack x : Act τ π Unit).LeavesOpen := by
  intro m o h
  unfold Slot.putBack
  dsimp only [modify, modifyGet, MonadStateOf.modifyGet, StateT.modifyGet, StateT.run, ReaderT.run,
    monadLift, MonadLift.monadLift]
  cases o.payloads.get? slot.state with
  | none => exact h
  | some stored => exact h

theorem leavesOpen_update {act : σ → Act τ π (StateId × σ)} (h : ∀ x, (act x).LeavesOpen) :
    (slot.update act).LeavesOpen := by
  have htake : (slot.take : Act τ π σ).LeavesOpen := fun _ _ h => h
  exact htake.bind fun before => (h before).bind fun after =>
    (slot.leavesOpen_putBack after.2).bind fun _ => Act.leavesOpen_pure _

end Slot

/-! ### Programs that declare rules of a kind -/

namespace RuleTable

def All (P : Rule τ π → Prop) (t : RuleTable τ π) : Prop :=
  ∀ st ∈ t.states, ∀ rule ∈ st.rules, P rule

/-- A rule that closes nothing, or reads the end of the input and closes the output, and that is
all. -/
def ClosesAtEnd (rule : Rule τ π) : Prop :=
  (∀ matched payloads, .close ∉ (rule.action.perform matched payloads).2.effects) ∨
    (rule.pattern = .endOfInput ∧
      ∀ matched payloads, (rule.action.perform matched payloads).2.effects = [.close])

namespace Build

/-- Every rule that the program adds to a table has the property. -/
def Declares {α : Type} (P : Rule τ π → Prop) (program : Build τ π α) : Prop :=
  ∀ t, t.All P → (program.run t).2.All P

variable {α β : Type} {P : Rule τ π → Prop} {program : Build τ π α} {f : α → Build τ π β}

theorem declares_pure (a : α) : (pure a : Build τ π α).Declares P := fun _ h => h

theorem Declares.bind (hprogram : program.Declares P) (hf : ∀ a, (f a).Declares P) :
    (program >>= f).Declares P := fun t h => hf _ _ (hprogram t h)

theorem declares_declare (name : String) : (declare name : Build τ π StateId).Declares P := by
  intro t h st hst rule hrule
  rcases List.mem_append.1 hst with hst | hst
  · exact h st hst rule hrule
  · rw [List.mem_singleton.1 hst] at hrule
    cases hrule

theorem declares_addRule (s : StateId) {pattern : Language} {action : Act τ π StateId}
    (hrule : P ⟨pattern, action⟩) : (addRule s pattern action).Declares P := by
  intro t h st hst rule hmem
  have hmodify : st ∈ t.states.modify s.index
      fun st => { st with rules := st.rules ++ [⟨pattern, action⟩] } := hst
  obtain ⟨i, hi, rfl⟩ := List.mem_iff_getElem.1 hmodify
  rw [List.getElem_modify] at hmem
  have hi' : i < t.states.length := by rwa [List.length_modify] at hi
  have hold := h _ (List.getElem_mem hi')
  split at hmem
  · rcases List.mem_append.1 hmem with hmem | hmem
    · exact hold rule hmem
    · rw [List.mem_singleton.1 hmem]
      exact hrule
  · exact hold rule hmem

theorem declares_forIn {xs : List α} {body : α → PUnit → Build τ π (ForInStep PUnit)}
    (h : ∀ x ∈ xs, ∀ u, (body x u).Declares P) : (forIn xs PUnit.unit body).Declares P := by
  induction xs with
  | nil => exact declares_pure _
  | cons x rest ih =>
    rw [List.forIn_cons]
    refine (h x List.mem_cons_self _).bind fun next => ?_
    cases next with
    | done u => exact declares_pure u
    | yield u => exact ih fun y hy => h y (List.mem_cons_of_mem x hy)

theorem Declares.table (h : program.Declares P) : (table program).All P :=
  h empty fun _ hst => nomatch hst

/-! ### Rules that close nothing -/

theorem declares_silent (s : StateId) (pattern : Language) {action : Act τ π StateId}
    (h : action.LeavesOpen) : (addRule s pattern action).Declares ClosesAtEnd :=
  declares_addRule s (.inl h.perform)

theorem declares_stay (s : StateId) (pattern : Language) {act : Act τ π Unit}
    (h : act.LeavesOpen) : (stay s pattern act).Declares ClosesAtEnd :=
  declares_silent s pattern (h.bind fun _ => Act.leavesOpen_pure s)

theorem declares_update {σ : Type} (slot : Slot π σ) (pattern : Language)
    {act : σ → Act τ π (StateId × σ)} (h : ∀ x, (act x).LeavesOpen) :
    (update slot pattern act).Declares ClosesAtEnd :=
  declares_silent slot.state pattern (slot.leavesOpen_update h)

theorem declares_end (s : StateId) :
    (stay s .endOfInput Act.close : Build τ π Unit).Declares ClosesAtEnd :=
  declares_addRule s (.inr ⟨rfl, fun _ _ => rfl⟩)

end Build

end RuleTable

/-! ### Firings -/

section

variable {t : RuleTable τ π} {config : LexerConfig} {e e' : Engine π} {f : Feed Char}
  {firing : Firing τ π} {read ahead : List Char}

theorem RuleTable.All.of_fire? {P : Rule τ π → Prop} (h : t.All P) {s : StateId} {index : Nat}
    {matched : Matched} {payloads : Payloads π}
    (hfiring : t.fire? s index matched payloads = some firing) :
    ∃ rule, (t.rules s)[index]? = some rule ∧ P rule ∧
      firing.effects = (rule.action.perform matched payloads).2.effects := by
  obtain ⟨rule, hrule, rfl⟩ := Option.map_eq_some_iff.1 hfiring
  obtain ⟨st, hst, hmem⟩ := RuleTable.mem_rules hrule
  exact ⟨rule, hrule, h st hst rule hmem, rfl⟩

/-- A rule that fires on characters alone does not read the end of the input. -/
theorem RuleTable.All.close_not_mem (hall : t.All ClosesAtEnd) {s : StateId} {p : List Char}
    {index : Nat} {matched : Matched} {payloads : Payloads π}
    (hmatches : t.Matches s (Language.symbols p) index)
    (hfiring : t.fire? s index matched payloads = some firing) : .close ∉ firing.effects := by
  obtain ⟨rule, hrule, hsilent | ⟨hpattern, -⟩, heffects⟩ := hall.of_fire? hfiring
  · rw [heffects]
    exact hsilent _ _
  · obtain ⟨rule', hrule', hwords⟩ := hmatches
    obtain rfl := Option.some.inj (hrule.symm.trans hrule')
    rw [hpattern] at hwords
    have hend : Language.symbols p = [.endMark] := hwords
    cases p with
    | nil => cases hend
    | cons c rest => cases hend

theorem Engine.close_not_mem_of_fire (hall : t.All RuleTable.ClosesAtEnd) {replays : Bool}
    (h : Engine.Tracks t f e read ahead) (hmove : e.move t config f = .fire firing e' replays) :
    .close ∉ firing.effects := by
  have hexplains := Engine.explains_move config h
  rw [hmove] at hexplains
  cases hexplains with
  | fire htext hwins hbeyond hfiring => exact hall.close_not_mem hwins.1 hfiring

theorem Engine.close_of_last (hall : t.All RuleTable.ClosesAtEnd)
    (hmove : e.move t config f = .last firing e') :
    .close ∉ firing.effects ∨ firing.effects = [.close] := by
  have hfires : t.Fires firing := Engine.fires_move (by rw [hmove]; rfl)
  obtain ⟨s, index, matched, payloads, hfiring⟩ := hfires
  obtain ⟨rule, -, hsilent | ⟨-, hcloses⟩, heffects⟩ := hall.of_fire? hfiring
  · rw [heffects]
    exact .inl (hsilent _ _)
  · rw [heffects]
    exact .inr (hcloses _ _)

end

/-! ### The grammars -/

namespace Grammar

open RuleTable RuleTable.Build

section

variable {π : Type}

theorem leavesOpen_emitMatch (kind : List Char → TokenKind) :
    (emitMatch kind : Act Token π Unit).LeavesOpen :=
  Act.leavesOpen_text.bind fun _ => Act.leavesOpen_span.bind fun _ => Act.leavesOpen_emit _

theorem leavesOpen_emitToken (kind : TokenKind) (lexeme : String) :
    (emitToken kind lexeme : Act Token π Unit).LeavesOpen :=
  Act.leavesOpen_span.bind fun _ => Act.leavesOpen_emit _

theorem leavesOpen_emitChar (lead : Nat) : (emitChar lead : Act Token π Unit).LeavesOpen := by
  refine Act.leavesOpen_text.bind fun text => ?_
  cases text[lead]? with
  | none => exact Act.leavesOpen_pure ()
  | some c => exact leavesOpen_emitToken _ _

theorem declares_stringRules (wrap : StringBody → π) (unwrap? : π → Option StringBody)
    (main : StateId) : (stringRules wrap unwrap? main).Declares ClosesAtEnd := by
  have hgrow : ∀ (s : StateId) (meaning : List Char → List Char) (body : StringBody),
      (growString s meaning body : Act Token π _).LeavesOpen := fun s meaning body =>
    Act.leavesOpen_text.bind fun _ => Act.leavesOpen_pure _
  refine (declares_declare "string").bind fun state => ?_
  refine (declares_silent _ _ ?_).bind fun _ => ?_
  · exact Act.leavesOpen_span.bind fun _ => Slot.leavesOpen_enter _ _
  refine (declares_update _ _ fun body => ?_).bind fun _ => ?_
  · exact Act.leavesOpen_span.bind fun _ => (Act.leavesOpen_emit _).bind fun _ =>
      Act.leavesOpen_pure _
  refine Declares.bind (declares_forIn fun escape _ _ => ?_) fun _ => ?_
  · exact (declares_update _ _ (hgrow state _)).bind fun _ => declares_pure _
  · exact declares_update _ _ (hgrow state _)

end

end Grammar

open RuleTable RuleTable.Build Grammar

theorem KLisp.closesAtEnd : KLisp.rules.All ClosesAtEnd := by
  apply Declares.table
  refine (declares_declare "main").bind fun main => ?_
  refine (declares_stringRules _ _ main).bind fun _ => ?_
  iterate 4 refine (declares_stay main _ (leavesOpen_emitToken _ _)).bind fun _ => ?_
  refine (declares_end main).bind fun _ => ?_
  iterate 2 refine (declares_stay main _ (Act.leavesOpen_pure ())).bind fun _ => ?_
  iterate 4 refine (declares_stay main _ (leavesOpen_emitMatch _)).bind fun _ => ?_
  exact declares_stay main _ (leavesOpen_emitChar 1)

theorem Scheme.closesAtEnd : Scheme.rules.All ClosesAtEnd := by
  apply Declares.table
  refine (declares_declare "main").bind fun main => ?_
  refine (declares_declare "block-comment").bind fun block => ?_
  refine (declares_silent main _ (Slot.leavesOpen_enter _ _)).bind fun _ => ?_
  refine (declares_stringRules _ _ main).bind fun _ => ?_
  iterate 3
    refine Declares.bind (declares_forIn fun text _ _ => ?_) fun _ => ?_
    · exact (declares_stay main _ (leavesOpen_emitToken _ _)).bind fun _ => declares_pure _
  iterate 3 refine (declares_stay main _ (leavesOpen_emitToken _ _)).bind fun _ => ?_
  refine (declares_end main).bind fun _ => ?_
  iterate 2 refine (declares_stay main _ (Act.leavesOpen_pure ())).bind fun _ => ?_
  refine (declares_stay main _ (leavesOpen_emitChar 2)).bind fun _ => ?_
  iterate 2 refine (declares_stay main _ (leavesOpen_emitMatch _)).bind fun _ => ?_
  refine (declares_update _ _ fun depth => Act.leavesOpen_pure _).bind fun _ => ?_
  refine (declares_stay block _ (Act.leavesOpen_pure ())).bind fun _ => ?_
  refine declares_update _ _ fun depth => ?_
  unfold Scheme.closeBlock
  split
  · exact Act.leavesOpen_pure _
  · exact Act.leavesOpen_pure _

end DerivativeLexer
