import DerivativeLexer.Proofs.Session.Returning

/-! # Listeners lose patience

A listener makes its requests only so often. What all listeners of a network together have left of
that never becomes more, and it becomes less whenever one of them makes its requests. -/

namespace DerivativeLexer

variable {τ π : Type}

theorem sum_map_modify {α : Type} (g : α → Nat) (f : α → α) (l : List α) (i : Nat) :
    ((l.modify i f).map g).sum + (l[i]?.map g).getD 0 =
      (l.map g).sum + (l[i]?.map fun a => g (f a)).getD 0 := by
  induction l generalizing i with
  | nil => simp
  | cons a rest ih =>
    cases i with
    | zero =>
      simp only [List.modify_zero_cons, List.map_cons, List.sum_cons, List.getElem?_cons_zero,
        Option.map_some, Option.getD_some]
      omega
    | succ i =>
      have hrest := ih i
      simp only [List.modify_succ_cons, List.map_cons, List.sum_cons, List.getElem?_cons_succ]
      omega

theorem sum_map_modify_le {α : Type} {g : α → Nat} {f : α → α} {l : List α} {i : Nat}
    (h : ∀ a, l[i]? = some a → g (f a) ≤ g a) : ((l.modify i f).map g).sum ≤ (l.map g).sum := by
  have hsum := sum_map_modify g f l i
  cases ha : l[i]? with
  | none =>
    rw [ha] at hsum
    exact Nat.le_of_eq hsum
  | some a =>
    have hle := h a ha
    simp only [ha, Option.map_some, Option.getD_some] at hsum
    omega

theorem sum_map_modify_lt {α : Type} {g : α → Nat} {f : α → α} {l : List α} {i : Nat} {a : α}
    (ha : l[i]? = some a) (hlt : g (f a) < g a) :
    ((l.modify i f).map g).sum < (l.map g).sum := by
  have hsum := sum_map_modify g f l i
  simp only [ha, Option.map_some, Option.getD_some] at hsum
  omega

/-! ### Budgets -/

def Subscriber.budget : Subscriber → Nat
  | .session _ => 0
  | .listener r => r.budget

def Input.budget (i : Input) : Nat := (i.subscribers.map Subscriber.budget).sum

def Session.budget (σ : Session τ π) : Nat := (σ.listeners.map (·.budget)).sum

theorem Reaction.hear_cases {α : Type} (r : Reaction α) (items : List α) :
    r.hear items = ([], r) ∨ (r.hear items).2.budget < r.budget := by
  unfold hear
  split_ifs with h
  · rw [Bool.and_eq_true, decide_eq_true_iff] at h
    exact .inr (Nat.sub_lt h.2 Nat.one_pos)
  · exact .inl rfl

namespace Network

variable {n n' : Network τ π}

/-- How often the listeners of a network may still make their requests. -/
def patience (n : Network τ π) : Nat :=
  (n.inputs.toList.map Input.budget).sum +
    (n.sessions.toList.map fun place => place.elim 0 Session.budget).sum

theorem patience_schedule (tasks : List (Task τ)) : (n.schedule tasks).patience = n.patience := rfl

theorem patience_modifyInput_le (s : Nat) {f : Input → Input}
    (h : ∀ i, n.inputs[s]? = some i → (f i).budget ≤ i.budget) :
    { n with inputs := n.inputs.modify s f }.patience ≤ n.patience := by
  refine Nat.add_le_add_right ?_ _
  rw [Array.toList_modify]
  exact sum_map_modify_le fun i hi => h i (by rwa [Array.getElem?_toList] at hi)

theorem patience_modifyInput_lt {s : Nat} {f : Input → Input} {i : Input}
    (hi : n.inputs[s]? = some i) (hlt : (f i).budget < i.budget) :
    { n with inputs := n.inputs.modify s f }.patience < n.patience := by
  refine Nat.add_lt_add_right ?_ _
  rw [Array.toList_modify]
  exact sum_map_modify_lt (by rwa [Array.getElem?_toList]) hlt

theorem patience_modifySource (s : Nat) (f : Source Char → Source Char) :
    (n.modifySource s f).patience ≤ n.patience :=
  patience_modifyInput_le s fun _ _ => Nat.le_refl _

theorem patience_modifySession_le {x : Nat} {f : Session τ π → Session τ π}
    (h : ∀ σ, n.session? x = some σ → (f σ).budget ≤ σ.budget) :
    (n.modifySession x f).patience ≤ n.patience := by
  refine Nat.add_le_add_left ?_ _
  rw [modifySession, Array.toList_modify]
  refine sum_map_modify_le fun place hplace => ?_
  cases place with
  | none => exact Nat.le_refl 0
  | some σ =>
    rw [Array.getElem?_toList] at hplace
    exact h σ (by rw [session?, hplace]; rfl)

theorem patience_modifySession (x : Nat) {f : Session τ π → Session τ π}
    (h : ∀ σ, (f σ).listeners = σ.listeners) : (n.modifySession x f).patience ≤ n.patience := by
  refine patience_modifySession_le fun σ _ => ?_
  rw [Session.budget, Session.budget, h]

theorem patience_modifySession_lt {x : Nat} {f : Session τ π → Session τ π} {σ : Session τ π}
    (hσ : n.session? x = some σ) (hlt : (f σ).budget < σ.budget) :
    (n.modifySession x f).patience < n.patience := by
  refine Nat.add_lt_add_left ?_ _
  rw [session?, Option.join_eq_some_iff] at hσ
  rw [modifySession, Array.toList_modify]
  exact sum_map_modify_lt (a := some σ) (by rwa [Array.getElem?_toList]) hlt

theorem budget_set_lt {α : Type} {g : α → Nat} {l : List α} {k : Nat} {a b : α}
    (ha : l[k]? = some a) (hlt : g b < g a) : ((l.set k b).map g).sum < (l.map g).sum := by
  rw [List.set_eq_modify]
  exact sum_map_modify_lt ha hlt

/-! ### Tasks -/

theorem patience_wake (x : Nat) : (n.wake x).patience ≤ n.patience := by
  unfold wake
  cases n.session? x with
  | none => exact Nat.le_refl _
  | some σ =>
    simp only
    split_ifs
    · exact Nat.le_refl _
    · rw [patience_schedule]
      exact patience_modifySession x fun _ => rfl

/-- A listener on a source that is told something makes its requests and has less patience then, or
it does nothing. -/
theorem tellInput_cases (s k : Nat) (text : List Char) :
    (n.tellInput s k text).patience < n.patience ∨
      ((n.tellInput s k text).patience ≤ n.patience ∧ Lighter 3 n (n.tellInput s k text)) := by
  unfold tellInput
  cases hu : n.inputs[s]?.bind (·.subscribers[k]?) with
  | none => exact .inr ⟨Nat.le_refl _, lighter_of_eq 3 rfl⟩
  | some u =>
    cases u with
    | session x => exact .inr ⟨patience_wake x, lighter_wake x⟩
    | listener r =>
      obtain ⟨i, hi, hr⟩ := Option.bind_eq_some_iff.1 hu
      simp only
      rcases r.hear_cases text with hnone | hless
      · rw [hnone]
        refine .inr ⟨?_, lighter_of_eq 3 rfl⟩
        rw [patience_schedule]
        refine patience_modifyInput_le s fun i' hi' => ?_
        obtain rfl := Option.some.inj (hi.symm.trans hi')
        rw [Input.budget, Input.budget, map_set_of_eq hr rfl]
      · rw [patience_schedule]
        exact .inl (patience_modifyInput_lt hi (budget_set_lt hr hless))

theorem tellOutput_cases (x k : Nat) (items : List τ) :
    (n.tellOutput x k items).patience < n.patience ∨
      ((n.tellOutput x k items).patience ≤ n.patience ∧
        Lighter 0 n (n.tellOutput x k items)) := by
  unfold tellOutput
  cases hσ : n.session? x with
  | none => exact .inr ⟨Nat.le_refl _, lighter_of_eq 0 rfl⟩
  | some σ =>
    simp only
    cases hr : σ.listeners[k]? with
    | none => exact .inr ⟨Nat.le_refl _, lighter_of_eq 0 rfl⟩
    | some r =>
      have hσ' : { n with notices := n.notices.push ⟨x, items, σ.status⟩ }.session? x = some σ := hσ
      simp only
      rcases r.hear_cases items with hnone | hless
      · rw [hnone]
        refine .inr ⟨?_, lighter_of_eq 0 rfl⟩
        rw [patience_schedule]
        refine patience_modifySession_le
          (n := { n with notices := n.notices.push ⟨x, items, σ.status⟩ }) fun σ' hσ'' => ?_
        obtain rfl := Option.some.inj (hσ'.symm.trans hσ'')
        rw [Session.budget, Session.budget, map_set_of_eq hr rfl]
      · rw [patience_schedule]
        exact .inl (patience_modifySession_lt hσ' (budget_set_lt hr hless))

theorem patience_grant (r : Request) : (n.grant r).patience ≤ n.patience := by
  cases r with
  | source r =>
    cases r with
    | push s text =>
      simp only [grant]
      cases n.source? s with
      | none => exact Nat.le_refl _
      | some source =>
        simp only
        split_ifs
        · exact Nat.le_refl _
        · rw [patience_schedule]
          exact patience_modifySource s _
    | close s =>
      rw [grant, patience_schedule]
      exact patience_modifySource s _
  | cancel x => exact (patience_wake x).trans (patience_modifySession x fun _ => rfl)

theorem patience_drain (x : Nat) : (n.drain x).patience ≤ n.patience := by
  unfold drain
  cases n.session? x with
  | none => exact Nat.le_refl _
  | some σ =>
    simp only
    split_ifs
    · exact Nat.le_refl _
    · exact Nat.le_refl _
    · cases σ.engine.move n.lexer.rules n.lexer.config
          ⟨(n.source? σ.input).getD .fresh, σ.reader⟩ with
      | rest => exact Nat.le_refl _
      | read engine feed =>
        simp only [patience_schedule]
        refine (patience_modifySession x ?_).trans (patience_modifySource σ.input _)
        exact fun _ => rfl
      | fire firing engine replays =>
        simp only [patience_schedule]
        exact patience_modifySession x fun _ => rfl
      | last firing engine =>
        simp only [patience_schedule]
        exact patience_modifySession x fun _ => rfl
      | fail error feed =>
        simp only [patience_schedule]
        refine (patience_modifySession x ?_).trans (patience_modifySource σ.input _)
        exact fun _ => rfl

theorem patience_perform (task : Task τ) : (n.perform task).patience ≤ n.patience := by
  cases task with
  | request r => exact patience_grant r
  | tellInput s k text => exact (tellInput_cases s k text).elim Nat.le_of_lt And.left
  | tellOutput x k items => exact (tellOutput_cases x k items).elim Nat.le_of_lt And.left
  | emit x item =>
    simp only [perform, emit]
    cases n.session? x with
    | none => exact Nat.le_refl _
    | some σ =>
      simp only
      split_ifs
      · exact Nat.le_refl _
      · rw [patience_schedule]
        exact patience_modifySession x fun _ => rfl
  | close x =>
    rw [perform, close, patience_schedule]
    exact patience_modifySession x fun _ => rfl
  | drain x => exact patience_drain x
  | proceed x replays =>
    rw [perform, proceed, patience_schedule]
    exact patience_modifySession x fun _ => rfl
  | finish x status =>
    simp only [perform, finish]
    cases n.session? x with
    | none => exact Nat.le_refl _
    | some σ =>
      simp only [patience_schedule]
      exact patience_modifySession x fun _ => rfl
  | release x => exact patience_modifySession x fun _ => rfl

end Network

end DerivativeLexer
