import DerivativeLexer.Proofs.Lexer.Beginnings

/-! # Cutting a text where a match begins

The longest match of a text that goes on may have needed a look at what is behind it. If the text
is cut behind the match, what was looked at is gone, and the match is all the more the longest. So a
text that is cut at a place where a match begins is lexed up to there as the whole text is, unless
a rule reads the new end of the input behind characters. -/

namespace DerivativeLexer

open DerivativeLexer.Language (symbols)

variable {τ π : Type}

/-- No rule reads the end of the input behind a character. -/
def RuleTable.EndsAlone (t : RuleTable τ π) : Prop :=
  ∀ s text, text ≠ [] → ∀ j, ¬t.Matches s (symbols text ++ [.endMark]) j

namespace SoloRun

variable {l : Lexer τ π} {r : SoloRun τ π}

theorem stopped_run (h : r.status.isLive = false) (n : Nat) :
    (r.run l n).status.isLive = false := by
  rw [run_of_stopped h]
  exact h

/-- As long as the run is live, it has put out what its matches have emitted. -/
theorem output_run (l : Lexer τ π) (r : SoloRun τ π) (n : Nat)
    (hlive : (r.run l n).status.isLive = true) :
    (r.run l n).output = applyEffects r.output ((r.firings l n).flatMap (·.effects)) := by
  induction n generalizing r with
  | zero => rfl
  | succ n ih =>
    cases hnow : r.status.isLive with
    | false => cases hlive.symm.trans (stopped_run hnow _)
    | true =>
      rw [run_succ hnow] at hlive
      rw [run_succ hnow, firings_succ hnow, List.flatMap_append, applyEffects_append, ih _ hlive]
      congr 1
      rw [step] at hlive ⊢
      generalize r.engine.move l.rules l.config r.feed = move at hlive ⊢
      cases move with
      | rest => rfl
      | read e f => rfl
      | fire firing e replays =>
        simp only [Move.firing?, Option.toList_some, List.flatMap_singleton]
      | last firing e => cases hlive.symm.trans (stopped_run rfl n)
      | fail error f => cases hlive.symm.trans (stopped_run rfl n)

/-- From where it stands to the beginning of a later match the run does what the procedure does on
any text that is cut behind there. -/
theorem munches_cut (hends : l.rules.EndsAlone) {preview : Nat} {m : MatchStart π}
    {rest tail : List Char} {fs : List (Firing τ π)} {e : Option LexError}
    (hrest : rest ++ tail = m.text)
    (hlater : Munches l.rules preview m.state m.payloads m.place rest fs e) (n : Nat)
    {read ahead : List Char} (hlive : r.status.isLive = true)
    (hclosed : r.feed.source.closed = true)
    (htracks : Engine.Tracks l.rules r.feed r.engine read ahead)
    (hbefore : (r.run l n).Before l m) :
    ∃ cut, cut ++ tail = read ++ ahead ∧
      Munches l.rules preview r.engine.matching.origin r.engine.payloads r.engine.matching.start
        cut (r.firings l n ++ fs) e := by
  induction n generalizing r read ahead with
  | zero =>
    rw [run] at hbefore
    refine ⟨rest, ?_, ?_⟩
    · rw [hrest, ← htracks.text_eq]
      exact hbefore.tracks.text_eq.symm
    · rw [hbefore.origin_eq, hbefore.start_eq, hbefore.payloads_eq]
      exact hlater
  | succ n ih =>
    rw [run_succ hlive, step] at hbefore
    rw [firings_succ hlive, step]
    have hexplains := Engine.explains_move l.config htracks
    generalize r.engine.move l.rules l.config r.feed = move at hexplains hbefore
    cases hexplains with
    | rest hahead hopen => cases hclosed.symm.trans hopen
    | @read c left e' f' hahead hreads htracks' horigin hstart hpayloads =>
      subst hahead
      obtain ⟨cut, hcut, hmunches⟩ := ih (SessionStatus.isLive_afterRead hlive _)
        (hreads.closed_eq.trans hclosed) htracks' hbefore
      rw [List.append_assoc, List.singleton_append] at hcut
      simp only [horigin, hstart, hpayloads] at hmunches
      exact ⟨cut, hcut, hmunches⟩
    | @fire p q i firing e' replays htext hwins hbeyond hfiring htracks' horigin hstart hpayloads =>
      obtain ⟨cut, hcut, hmunches⟩ := ih
        (r := { r with
          engine := e'
          output := applyEffects r.output firing.effects
          status := r.status.afterFire replays })
        (SessionStatus.isLive_afterFire hlive _) hclosed htracks' hbefore
      simp only [horigin, hstart, hpayloads] at hmunches
      have hne : p ≠ [] := by
        rintro rfl
        exact RuleTable.not_matches_nil l.productive _ _ hwins.1
      have hsplit : p ++ cut ++ tail = read ++ ahead := by
        rw [List.append_assoc, hcut, ← htext]
        rfl
      refine ⟨p ++ cut, hsplit, ?_⟩
      -- what is longer and a beginning of the cut text is one of the whole text
      refine .next (hends _ _ (List.append_ne_nil_of_left_ne_nil hne cut)) rfl hne hwins
        (fun s hs hlt => hbeyond.beginning s ?_ hlt) hfiring hmunches
      rw [htext, ← hsplit]
      exact hs.trans (List.prefix_append _ tail)
    | last => cases hbefore.live.symm.trans (stopped_run rfl n)
    | deadEnd => cases hbefore.live.symm.trans (stopped_run rfl n)
    | tooLong => cases hbefore.live.symm.trans (stopped_run rfl n)

end SoloRun

/-- If nothing more is to be emitted when the text ends at a place where a match begins, then the
text up to there has the items so far. -/
theorem Lexer.Begins.munches_take {l : Lexer τ π} (hends : l.rules.EndsAlone) {source : List Char}
    {s : StateId} {payloads : Payloads π} {place : Position} {items : List τ}
    (h : l.Begins source s payloads place items) {preview : Nat} {firing : Firing τ π}
    (hlast : Munches l.rules preview s payloads place [] [firing] none) :
    ∃ fs, Munches l.rules preview RuleTable.initial .empty .start (source.take place.offset)
        (fs ++ [firing]) none ∧
      Effect.emitted (fs.flatMap (·.effects)) = items := by
  obtain ⟨n, hbefore, hitems⟩ := h.exists_before
  obtain ⟨cut, hcut, hmunches⟩ := SoloRun.munches_cut hends (List.nil_append _) hlast n rfl rfl
    (SoloRun.tracks_start l source) hbefore
  rw [List.nil_append] at hcut
  have htake : cut = source.take place.offset :=
    List.append_cancel_right (hcut.trans (List.take_append_drop place.offset source).symm)
  subst htake
  refine ⟨_, hmunches, ?_⟩
  rw [← hitems, SoloRun.output_run l _ n hbefore.live]
  exact (List.nil_append _).symm.trans (SoloRun.queue_applyEffects .fresh _).symm

end DerivativeLexer
