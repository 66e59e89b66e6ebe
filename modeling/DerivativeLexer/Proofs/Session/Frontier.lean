import DerivativeLexer.Proofs.Session.MatchLimit
import DerivativeLexer.Proofs.Session.Tiling

/-! # Reading up to the furthest place

A session that goes back reads characters again until it is where it was before. In between it may
fire other matches, and go back once more before it has come so far. Its status follows this
exactly: between two of its moves it says that characters are read again just when the session is
not yet as far as it ever was. All of these characters are in the memory of its reader, so a
session that finds nothing to read is never in the middle of them. -/

namespace DerivativeLexer

variable {τ π : Type}

namespace Move

/-- How far the move has read, if it has read a character. -/
def consumed? : Move τ π → Option Nat
  | .read next _ => some next.position.offset
  | _ => none

/-- The furthest offset that moves have read up to, of a session that was launched at `k`. -/
def furthest (k : Nat) (moves : List (Move τ π)) : Nat :=
  (moves.filterMap consumed?).foldl max k

theorem furthest_append (k : Nat) (moves later : List (Move τ π)) :
    furthest k (moves ++ later) = furthest (furthest k moves) later := by
  rw [furthest, List.filterMap_append, List.foldl_append]
  rfl

end Move

namespace Network

/-- In `m` the session `x` has made these moves since it was launched at the offset `k`. -/
def Made (l : Lexer τ π) (m : Network τ π) (x k : Nat) (moves : List (Move τ π)) : Prop :=
  ∃ (n : Network τ π) (s : Nat) (reader : Reader Char) (trace : List (Event τ)),
    n.Reachable l ∧ n.agenda = [] ∧ (reader.start ≤ k ∧ k ≤ reader.reach) ∧ x = n.sessions.size ∧
      (n.launch s k reader).Moved x trace moves m

/-- No move of the session is under way: it is about to make the next one, or it has none to
make. -/
def BetweenMoves (n : Network τ π) (x : Nat) : Prop :=
  ∀ task ∈ Task.own x n.agenda, task = .drain x ∨ task = .release x

end Network

section

variable {l : Lexer τ π} {n m : Network τ π} {x k : Nat} {σ σ' : Session τ π} {task : Task τ}
  {rest added agenda : List (Task τ)} {moves : List (Move τ π)}

/-! ### One move -/

namespace Engine

variable {t : RuleTable τ π} {config : LexerConfig} {e e' : Engine π} {f f' : Feed Char}
  {firing : Firing τ π} {read ahead : List Char} {r : Reader Char}

theorem frontier_of_read (h : Tracks t f e read ahead) (hmove : e.move t config f = .read e' f') :
    e'.frontier = max e.frontier e'.position.offset := by
  have hshifts := shifts_move config h
  rw [hmove] at hshifts
  cases hshifts with
  | read hposition hfrontier => rw [hfrontier, hposition]

theorem frontier_of_fire {replays : Bool} (h : Tracks t f e read ahead)
    (hmove : e.move t config f = .fire firing e' replays) : e'.frontier = e.frontier := by
  have hshifts := shifts_move config h
  rw [hmove] at hshifts
  cases hshifts with
  | fire hposition hfrontier hreplays => exact hfrontier

/-- What was read once is in the memory of the reader, and nothing of the source is needed to read
it again. -/
theorem Placed.cached (h : Placed t r e) {offset : Nat} (hstart : r.start ≤ offset)
    (hlt : offset < e.frontier) :
    ∃ c, ∀ source, (⟨source, r⟩ : Feed Char).head? offset = some (c, ⟨source, r⟩) := by
  obtain ⟨source, read, ahead, htracks⟩ := h
  have hreach : e.frontier ≤ r.start + r.drawn.size := htracks.frontier_le
  have hsize : offset - r.start < r.drawn.size := by omega
  have hdrawn : r.drawnAt? offset = some r.drawn[offset - r.start] := by
    rw [Reader.drawnAt?, if_pos hstart, Array.getElem?_eq_getElem hsize]
  refine ⟨r.drawn[offset - r.start], fun source => ?_⟩
  simp only [Feed.head?, hdrawn]

end Engine

/-! ### Moves of a session -/

namespace Network

theorem Reachable.exists_made (h : m.Reachable l) (hσ : m.session? x = some σ) :
    ∃ k moves, m.Made l x k moves := by
  obtain ⟨trace, hruns⟩ := h
  induction hruns generalizing σ with
  | refl => cases hσ
  | @snoc trace m m' e hbefore hnext ih =>
    rcases hnext.session_before hσ with ⟨σ₀, hσ₀, -⟩ |
      ⟨t, offset, reader, hx, hagenda, hreached, rfl⟩
    · obtain ⟨k, moves, n, s, reader, trace', hn, hagenda, hreached, hx, hmoved⟩ := ih hσ₀
      exact ⟨k, _, n, s, reader, _, hn, hagenda, hreached, hx, hmoved.snoc hnext⟩
    · exact ⟨offset, [], m, t, reader, [], ⟨trace, hbefore⟩, hagenda, hreached, hx, .refl⟩

/-- The frontier of the engine goes with what the move of a drain has read. -/
theorem Turn.furthest_drain (hstage : Stage n.lexer x σ (.drain x :: rest))
    (hσ : n.session? x = some σ) (hturn : Turn n x σ (.drain x) σ' added) (asked : List Request) :
    σ'.engine.frontier =
      Move.furthest σ.engine.frontier (n.move? x (.task (.drain x) asked)).toList := by
  obtain ⟨-, -, hreading⟩ := hstage.of_drain
  have hfeed : Engine.Placed n.lexer.rules
      (⟨(n.source? σ.input).getD .fresh, σ.reader⟩ : Feed Char).reader σ.engine := hreading.placed
  obtain ⟨read, ahead, htracks⟩ := hfeed.tracks
  have hmove? : n.move? x (.task (.drain x) asked) = n.nextMove? x := if_pos rfl
  have hnext : ∀ {move : Move τ π}, σ.status.isLive = true → σ.cancelled = false →
      σ.engine.move n.lexer.rules n.lexer.config
        ⟨(n.source? σ.input).getD .fresh, σ.reader⟩ = move → n.nextMove? x = some move := by
    intro move hlive hcancelled hmove
    simp [nextMove?, hσ, hlive, hcancelled, hmove]
  rw [hmove?]
  cases hturn with
  | elsewhere howner => exact (howner rfl).elim
  | halts hstopped =>
    have hlive := hreading.live
    rw [hstopped] at hlive
    cases hlive
  | heeds hlive hcancelled =>
    have hnone : n.nextMove? x = none := by simp [nextMove?, hσ, hcancelled]
    rw [hnone]
    rfl
  | rests hlive hcancelled hmove =>
    rw [hnext hlive hcancelled hmove]
    rfl
  | reads hlive hcancelled hmove =>
    rw [hnext hlive hcancelled hmove]
    exact Engine.frontier_of_read htracks hmove
  | fires hlive hcancelled hmove =>
    rw [hnext hlive hcancelled hmove]
    exact Engine.frontier_of_fire htracks hmove
  | ends hlive hcancelled hmove =>
    rw [hnext hlive hcancelled hmove]
    exact (Engine.same_of_last hmove).2.2
  | fails hlive hcancelled hmove =>
    rw [hnext hlive hcancelled hmove]
    rfl

theorem Turn.frontier_eq (hturn : Turn n x σ task σ' added) (hdrain : task ≠ .drain x) :
    σ'.engine.frontier = σ.engine.frontier := by
  cases hturn with
  | halts => exact (hdrain rfl).elim
  | heeds => exact (hdrain rfl).elim
  | rests => exact (hdrain rfl).elim
  | reads => exact (hdrain rfl).elim
  | fires => exact (hdrain rfl).elim
  | ends => exact (hdrain rfl).elim
  | fails => exact (hdrain rfl).elim
  | _ => rfl

/-- The frontier is the furthest offset that the session has ever read up to. -/
theorem Made.frontier_eq (h : m.Made l x k moves) (hσ : m.session? x = some σ) :
    σ.engine.frontier = Move.furthest k moves := by
  obtain ⟨n, s, reader, trace, hn, hagenda, hreached, rfl, hmoved⟩ := h
  have hlaunched : (n.launch s k reader).Reachable l := hn.runs (.one (.launch s hagenda hreached))
  have hsize : n.sessions.size < (n.launch s k reader).sessions.size :=
    lt_size_of_session? (session?_launch_size s k reader)
  induction hmoved generalizing σ with
  | refl =>
    obtain rfl := Option.some.inj (hσ.symm.trans (session?_launch_size s k reader))
    rfl
  | @snoc trace moves m m' e hbefore hnext ih =>
    obtain ⟨σ₀, hσ₀, hpasses⟩ := hnext.passes_before (hsize.trans_le hbefore.runs.size_le) hσ
    rw [Move.furthest_append, ← ih hσ₀]
    cases hpasses with
    | @turn task asked rest added _ hevent hagenda' hturn hadded =>
      subst hevent
      by_cases hdrain : task = .drain n.sessions.size
      · subst hdrain
        have hstage := (hlaunched.runs hbefore.runs).stage hσ₀
        rw [hagenda'] at hstage
        exact Turn.furthest_drain (n := { m with agenda := rest }) hstage hσ₀ hturn asked
      · have hnone : m.move? n.sessions.size (.task task asked) = none :=
          move?_of_ne fun asked' heq => hdrain (Event.task.inj heq).1
        rw [hnone]
        exact hturn.frontier_eq hdrain
    | aside hevent =>
      rw [move?_of_ne fun asked => hevent _ asked]
      rfl

end Network

/-! ### Between moves -/

/-- A live session that makes no move has its place, and it is calm unless it is about to make
one. -/
theorem Stage.of_between (h : Stage l x σ agenda) (hlive : σ.status.isLive = true)
    (hbetween : ∀ task ∈ Task.own x agenda, task = .drain x ∨ task = .release x) :
    σ.Reading l ∧ (.drain x ∉ agenda → σ.Calm l) := by
  have hother : ∀ {task : Task τ}, task ∈ agenda → task.owner? = some x →
      task ≠ .drain x → task ≠ .release x → False := by
    intro task htask howner hdrain hrelease
    exact (hbetween task ((Task.mem_own_iff howner).2 htask)).elim hdrain hrelease
  have hlast : ∀ {work : List (Task τ)} {last : Task τ},
      Task.own x agenda = work ++ [last] → last ∈ agenda := by
    intro work last hown
    have hmem : last ∈ Task.own x agenda :=
      hown ▸ List.mem_append_right _ (List.mem_singleton_self _)
    exact (List.mem_filter.1 hmem).1
  cases h with
  | idle hown hbusy hcalm => exact ⟨hcalm.toReading, fun _ => hcalm⟩
  | ready hown hbusy hreading => exact ⟨hreading, fun h => (h List.mem_cons_self).elim⟩
  | rested hown hbusy hcalm => exact ⟨hcalm.toReading, fun _ => hcalm⟩
  | failing => exact (hother List.mem_cons_self rfl (by simp) (by simp)).elim
  | cancelling => exact (hother List.mem_cons_self rfl (by simp) (by simp)).elim
  | acting hown => exact (hother (hlast hown) rfl (by simp) (by simp)).elim
  | ending hown => exact (hother (hlast hown) rfl (by simp) (by simp)).elim
  | closing hown hbusy hfinal => exact (Bool.false_ne_true (hfinal.not_isLive ▸ hlive)).elim
  | closed hown hbusy hfinal => exact (Bool.false_ne_true (hfinal.not_isLive ▸ hlive)).elim
  | done hown hbusy hfinal => exact (Bool.false_ne_true (hfinal.not_isLive ▸ hlive)).elim

end

namespace Network

/-- Between any two moves of a live session, its status is `backtracking` just when it is not as far
as the furthest offset that it has read up to, and `stepping` otherwise. All that it has read is
remembered. So if it is not about to make a move, it is not `backtracking`. Others may read from
its source meanwhile, and its listeners may ask for anything. -/
theorem backtracking_exact {l : Lexer τ π} {m : Network τ π} {x : Nat} {σ : Session τ π}
    (h : m.Reachable l) (hσ : m.session? x = some σ) (hlive : σ.status.isLive = true)
    (hbetween : m.BetweenMoves x) :
    (∃ k moves, m.Made l x k moves) ∧ ∀ k moves, m.Made l x k moves →
      σ.engine.frontier = Move.furthest k moves ∧
      (σ.status = .backtracking ↔ σ.engine.position.offset < Move.furthest k moves) ∧
      (σ.status = .stepping ↔ Move.furthest k moves ≤ σ.engine.position.offset) ∧
      (∀ offset, σ.reader.start ≤ offset → offset < Move.furthest k moves →
        ∃ c, ∀ source,
          (⟨source, σ.reader⟩ : Feed Char).head? offset = some (c, ⟨source, σ.reader⟩)) ∧
      (.drain x ∉ m.agenda → σ.status ≠ .backtracking) := by
  obtain ⟨hreading, hcalm⟩ := (h.stage hσ).of_between hlive hbetween
  refine ⟨h.exists_made hσ, fun k moves hmade => ?_⟩
  have hfrontier := hmade.frontier_eq hσ
  have hback : σ.status = .backtracking ↔ σ.engine.position.offset < Move.furthest k moves := by
    rw [hreading.status_iff, ← hfrontier, Engine.replaying, decide_eq_true_iff]
  refine ⟨hfrontier, hback, ⟨fun hstepping => ?_, fun hle => ?_⟩, ?_, fun hdrain hstatus => ?_⟩
  · rw [← Nat.not_lt, ← hback, hstepping]
    exact SessionStatus.noConfusion
  · exact SessionStatus.eq_stepping hlive fun hstatus => Nat.not_lt.2 hle (hback.1 hstatus)
  · rw [← hfrontier]
    exact fun offset => hreading.placed.cached
  · have hstepping := (hcalm hdrain).status_eq
    rw [hstatus] at hstepping
    cases hstepping

/-- After the second `a` the end of the input was read, and the session has gone back to read that
`a` again. -/
theorem backtracking_exact_prompting : ∃ (moves : List (Move String Unit))
    (σ : Session String Unit),
    ((prompting.launch 0 1 prompted.reader).settle 9).Made .prompting 0 1 moves ∧
      ((prompting.launch 0 1 prompted.reader).settle 9).session? 0 = some σ ∧
      σ.status = .backtracking ∧ σ.engine.position.offset = 3 ∧ Move.furthest 1 moves = 4 ∧
      (σ.status = .backtracking ↔ σ.engine.position.offset < Move.furthest 1 moves) ∧
      ∃ c, ∀ source,
        (⟨source, σ.reader⟩ : Feed Char).head? 3 = some (c, ⟨source, σ.reader⟩) := by
  obtain ⟨σ, hσ⟩ : ∃ σ, ((prompting.launch 0 1 prompted.reader).settle 9).session? 0 = some σ :=
    ⟨_, (Option.some_get (by decide +kernel)).symm⟩
  have hstate : (((prompting.launch 0 1 prompted.reader).settle 9).session? 0).map
      (fun σ => (σ.status, σ.engine.position.offset, σ.reader.start)) =
        some (.backtracking, 3, 0) := by decide +kernel
  rw [hσ, Option.map_some, Option.some_inj, Prod.mk.injEq, Prod.mk.injEq] at hstate
  obtain ⟨hstatus, hposition, hstart⟩ := hstate
  have hlaunches := launches_prompting
  have hmoved := (Moved.refl (n := prompting.launch 0 1 prompted.reader) (x := 0)).settle 9
  have hreachable := hlaunches.runs.1.runs hmoved.runs
  have hmade := (⟨prompting, 0, prompted.reader, _, hlaunches.reachable, rfl, hlaunches.reached,
    rfl, hmoved⟩ : Made .prompting _ 0 1 _)
  have hfurthest : Move.furthest 1
      ([] ++ (prompting.launch 0 1 prompted.reader).movesOf 0 9) = 4 := by decide +kernel
  have hlive : σ.status.isLive = true := by
    rw [hstatus]
    rfl
  have hagenda : ((prompting.launch 0 1 prompted.reader).settle 9).agenda = [.drain 0] := by
    decide +kernel
  have hbetween : ((prompting.launch 0 1 prompted.reader).settle 9).BetweenMoves 0 := by
    intro task htask
    rw [hagenda] at htask
    exact .inl (List.mem_singleton.1 (List.mem_filter.1 htask).1)
  obtain ⟨-, hback, -, hcached, -⟩ := (backtracking_exact hreachable hσ hlive hbetween).2 1 _ hmade
  refine ⟨_, σ, hmade, hσ, hstatus, hposition, hfurthest, hback, hcached 3 ?_ ?_⟩
  · rw [hstart]
    exact Nat.zero_le 3
  · rw [hfurthest]
    exact Nat.lt_succ_self 3

end Network

end DerivativeLexer
