import DerivativeLexer.Grammar.KLisp
import DerivativeLexer.Proofs.Grammar.Accounts

/-! # The grammars lose nothing

The tokens of a text that one of the grammars accepts stand in the text, each where its span says
and with the characters that stand there, and what is left between them is blanks and comments. -/

namespace DerivativeLexer

open DerivativeLexer.Language Layers

variable {π : Type}

theorem Lexer.eq_of_build {τ : Type} {rules : RuleTable τ π} {config : LexerConfig}
    {l : Lexer τ π} (h : build rules config = .ok l) : l.rules = rules ∧ l.config = config := by
  unfold build at h
  split at h
  · obtain rfl := Except.ok.inj h
    exact ⟨rfl, rfl⟩
  · cases h

/-- If every rule keeps the account, the tokens of a whole text are laid out in it. -/
theorem Layers.lossless {g : Layers π} {rules : RuleTable Token π}
    (hkeeps : ∀ s, ∀ rule ∈ rules.rules s, g.Keeps rules s rule)
    (hmain : g.main = RuleTable.initial) {source : List Char} {tokens : List Token}
    (h : (Lexer.build rules .standard >>= fun l => l.tokenize source) = .ok tokens) :
    Lossless g.blocks source tokens := by
  obtain ⟨l, hbuild, htokenize⟩ : ∃ l, Lexer.build rules .standard = .ok l ∧
      l.tokenize source = .ok tokens := by
    cases hbuild : Lexer.build rules .standard with
    | error e =>
      rw [hbuild] at h
      cases h
    | ok l =>
      rw [hbuild] at h
      exact ⟨l, rfl, h⟩
  obtain ⟨rfl, hconfig⟩ := Lexer.eq_of_build hbuild
  have hmax : l.config.maxMatch = none := by rw [hconfig]; rfl
  obtain ⟨e, hmunches, -, -, hresult⟩ := l.maximal_munch hmax source
  rw [htokenize] at hresult
  cases e with
  | some error => cases hresult
  | none =>
    obtain rfl := Except.ok.inj hresult
    have haccounts := accounts_munches hkeeps hmunches rfl
    rw [← hmain] at haccounts
    exact (accounts_main.1 haccounts).lossless

/-! ### KLisp -/

namespace KLisp

def layers : Layers StringBody where
  main := ⟨0⟩
  strings := ⟨⟨1⟩, Grammar.emptyBody, id, some⟩
  depth := fun _ => 0
  blocks := false
  apart := by decide
  unwrap_wrap := fun _ => rfl

theorem keeps (s : StateId) : ∀ rule ∈ rules.rules s, layers.Keeps rules s rule := by
  obtain ⟨_ | _ | n⟩ := s
  · refine List.forall_mem_cons.2 ⟨keeps_openString, ?_⟩
    iterate 4 refine List.forall_mem_cons.2 ⟨keeps_emitToken _ _, ?_⟩
    refine List.forall_mem_cons.2 ⟨keeps_end, ?_⟩
    refine List.forall_mem_cons.2 ⟨keeps_whitespace, ?_⟩
    refine List.forall_mem_cons.2 ⟨keeps_comment (by decide +kernel), ?_⟩
    iterate 4 refine List.forall_mem_cons.2 ⟨keeps_emitMatch _ (by decide +kernel), ?_⟩
    exact List.forall_mem_singleton.2 (keeps_emitChar "\\" rfl)
  · refine List.forall_mem_cons.2 ⟨keeps_closeString, ?_⟩
    iterate 4 refine List.forall_mem_cons.2 ⟨keeps_escape _ _, ?_⟩
    exact List.forall_mem_singleton.2 (keeps_growString _ rfl)
  · exact fun _ h => nomatch h

end KLisp

/-! ### Scheme -/

namespace Scheme

def layers : Layers Payload where
  main := ⟨0⟩
  strings := ⟨⟨2⟩, Grammar.emptyBody, .string, Payload.string?⟩
  depth := Slot.read ⟨⟨1⟩, 0, .depth, Payload.depth?⟩
  blocks := true
  apart := by decide
  unwrap_wrap := fun _ => rfl

theorem counts : layers.Counts ⟨⟨1⟩, 0, .depth, Payload.depth?⟩ where
  blocks := rfl
  ne_main := by decide
  ne_strings := by decide
  depth_eq := fun _ => rfl
  unwrap_wrap := fun _ => rfl

theorem keeps (s : StateId) : ∀ rule ∈ rules.rules s, layers.Keeps rules s rule := by
  obtain ⟨_ | _ | _ | n⟩ := s
  · refine List.forall_mem_cons.2 ⟨counts.keeps_enter, ?_⟩
    refine List.forall_mem_cons.2 ⟨keeps_openString, ?_⟩
    -- The marks, the brackets, the point and the truth values.
    iterate 14 refine List.forall_mem_cons.2 ⟨keeps_emitToken _ _, ?_⟩
    refine List.forall_mem_cons.2 ⟨keeps_end, ?_⟩
    refine List.forall_mem_cons.2 ⟨keeps_whitespace, ?_⟩
    refine List.forall_mem_cons.2 ⟨keeps_comment (by decide +kernel), ?_⟩
    refine List.forall_mem_cons.2 ⟨keeps_emitChar "#\\" rfl, ?_⟩
    refine List.forall_mem_cons.2 ⟨keeps_emitMatch _ (by decide +kernel), ?_⟩
    exact List.forall_mem_singleton.2 (keeps_emitMatch _ (by decide +kernel))
  · refine List.forall_mem_cons.2 ⟨counts.keeps_open, ?_⟩
    refine List.forall_mem_cons.2
      ⟨counts.keeps_char (by decide +kernel) (by decide +kernel), ?_⟩
    exact List.forall_mem_singleton.2 counts.keeps_close
  · refine List.forall_mem_cons.2 ⟨keeps_closeString, ?_⟩
    iterate 4 refine List.forall_mem_cons.2 ⟨keeps_escape _ _, ?_⟩
    exact List.forall_mem_singleton.2 (keeps_growString _ rfl)
  · exact fun _ h => nomatch h

end Scheme

namespace Grammar

/-- The bundled grammars lose nothing of a text that they accept. -/
theorem lossless_of_tokenize (source : String) (tokens : List Token) :
    (KLisp.tokenize source = .ok tokens → Lossless false source.toList tokens) ∧
      (Scheme.tokenize source = .ok tokens → Lossless true source.toList tokens) :=
  ⟨KLisp.layers.lossless KLisp.keeps rfl, Scheme.layers.lossless Scheme.keeps rfl⟩

/-- Comments, also nested ones, and string literals with a quotation mark in the one and an escape
in the other. -/
theorem lossless_of_tokenize_sample :
    (KLisp.tokenize "; a\n:k \"b\\n\"" =
        .ok [⟨.keyword ":k", ":k", ⟨4, 2, 1⟩, ⟨6, 2, 3⟩⟩,
          ⟨.string "b\n", "\"b\\n\"", ⟨7, 2, 4⟩, ⟨12, 2, 9⟩⟩] ∧
      Lossless false "; a\n:k \"b\\n\"".toList
        [⟨.keyword ":k", ":k", ⟨4, 2, 1⟩, ⟨6, 2, 3⟩⟩,
          ⟨.string "b\n", "\"b\\n\"", ⟨7, 2, 4⟩, ⟨12, 2, 9⟩⟩]) ∧
    (Scheme.tokenize "a #!x#!\"!#!#;b\n\"c\"" =
        .ok [⟨.symbol "a", "a", ⟨0, 1, 1⟩, ⟨1, 1, 2⟩⟩,
          ⟨.string "c", "\"c\"", ⟨15, 2, 1⟩, ⟨18, 2, 4⟩⟩] ∧
      Lossless true "a #!x#!\"!#!#;b\n\"c\"".toList
        [⟨.symbol "a", "a", ⟨0, 1, 1⟩, ⟨1, 1, 2⟩⟩,
          ⟨.string "c", "\"c\"", ⟨15, 2, 1⟩, ⟨18, 2, 4⟩⟩]) := by
  refine ⟨⟨?_, (lossless_of_tokenize _ _).1 ?_⟩, ⟨?_, (lossless_of_tokenize _ _).2 ?_⟩⟩
  · decide +kernel
  · decide +kernel
  · decide +kernel
  · decide +kernel

end Grammar

end DerivativeLexer
