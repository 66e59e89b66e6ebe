import DerivativeLexer.Proofs.Language.Expression
import Mathlib.Data.Nat.Fib.Basic

/-! # How large derivatives become

The combinators leave out what cannot matter, but of a union they look only at the two sides as
they stand. A side that is written again deep inside of the other one is kept. So a language that
comes back beside its own derivative grows with every symbol: each derivative is the union of the
two before it, and its size is a number of Fibonacci's kind. The alternatives `a` and `aa` under a
star are such a language, and no bound holds for the sizes of its derivatives. -/

namespace DerivativeLexer

open DerivativeLexer.Language (symbols)

namespace Language

variable {a b : Language} {x : Symbol}

theorem size_pos (a : Language) : 0 < a.size := by
  cases a <;> simp only [size] <;> omega

theorem rejectsAll_eq_false (h : a.acceptsEmpty = true) : a.rejectsAll = false := by
  have hnil : [] ∈ a.words := (acceptsEmpty_iff a).1 h
  rw [← Bool.not_eq_true, rejectsAll_iff]
  intro hzero
  exact FormalLanguage.eq_zero_iff.1 hzero [] hnil

/-- The language has the empty word, and the quick look never finds it inside of another one. -/
structure Stubborn (a : Language) : Prop where
  accepts : a.acceptsEmpty = true
  within_eq : ∀ b, a.within b = false

theorem Stubborn.union (ha : a.Stubborn) : (a.union b).Stubborn where
  accepts := by simp [acceptsEmpty, ha.accepts]
  within_eq := fun _ => rfl

/-- A union of two such languages keeps both sides, unless they are the same tree. -/
theorem Stubborn.or_eq (ha : a.Stubborn) (hb : b.Stubborn) (hne : a ≠ b) :
    a.or b = a.union b := by
  have hra : a.rejectsAll = false := rejectsAll_eq_false ha.accepts
  have hrb : b.rejectsAll = false := rejectsAll_eq_false hb.accepts
  have heq : (a == b) = false := by simpa using hne
  simp [Language.or, hra, hrb, heq, ha.within_eq b, hb.within_eq a]

/-! ### A language that comes back beside its derivative -/

def deriveTimes (a : Language) (x : Symbol) (n : Nat) : Language :=
  a.deriveWord (List.replicate n x)

theorem deriveTimes_succ (a : Language) (x : Symbol) (n : Nat) :
    a.deriveTimes x (n + 1) = (a.deriveTimes x n).derive x := by
  rw [deriveTimes, deriveTimes, List.replicate_succ', deriveWord_append]
  rfl

/-- The second derivative is the union of the language and its first derivative, and nothing of it
can be left out. -/
structure Returns (a : Language) (x : Symbol) : Prop where
  stubborn : a.Stubborn
  stubborn_derive : (a.derive x).Stubborn
  derive_derive : (a.derive x).derive x = a.union (a.derive x)

namespace Returns

theorem stubborn_deriveTimes (h : a.Returns x) (n : Nat)
    (hstep : ∀ k < n, a.deriveTimes x (k + 2) =
      (a.deriveTimes x k).union (a.deriveTimes x (k + 1))) :
    (a.deriveTimes x n).Stubborn ∧ (a.deriveTimes x (n + 1)).Stubborn := by
  induction n with
  | zero => exact ⟨h.stubborn, h.stubborn_derive⟩
  | succ n ih =>
    obtain ⟨hn, hsucc⟩ := ih fun k hk => hstep k (by omega)
    have hunion := hstep n (by omega)
    refine ⟨hsucc, ?_⟩
    rw [hunion]
    exact hn.union

/-- From the second one on every derivative is the union of the two before it. -/
theorem deriveTimes_eq (h : a.Returns x) (n : Nat) :
    a.deriveTimes x (n + 2) = (a.deriveTimes x n).union (a.deriveTimes x (n + 1)) := by
  induction n using Nat.strong_induction_on with
  | _ n ih =>
    cases n with
    | zero => exact h.derive_derive
    | succ n =>
      have hunion := ih n (Nat.lt_succ_self n)
      obtain ⟨hsucc, hnext⟩ := h.stubborn_deriveTimes (n + 1) ih
      -- the sides differ, since one of them is a part of the other
      have hne : a.deriveTimes x (n + 1) ≠ a.deriveTimes x (n + 2) := by
        intro heq
        have hsize := congrArg size (heq.trans hunion)
        simp only [size] at hsize
        omega
      calc a.deriveTimes x (n + 3)
          = (a.deriveTimes x (n + 2)).derive x := a.deriveTimes_succ x (n + 2)
        _ = ((a.deriveTimes x n).derive x).or ((a.deriveTimes x (n + 1)).derive x) := by
          rw [hunion, derive]
        _ = (a.deriveTimes x (n + 1)).or (a.deriveTimes x (n + 2)) := by
          rw [← deriveTimes_succ, ← deriveTimes_succ]
        _ = (a.deriveTimes x (n + 1)).union (a.deriveTimes x (n + 2)) := hsucc.or_eq hnext hne

theorem fib_le_size (h : a.Returns x) (n : Nat) :
    Nat.fib (n + 1) ≤ (a.deriveTimes x n).size := by
  induction n using Nat.twoStepInduction with
  | zero => exact size_pos _
  | one => exact size_pos _
  | more n hn hsucc =>
    have hfib : Nat.fib (n + 3) = Nat.fib (n + 1) + Nat.fib (n + 2) := Nat.fib_add_two
    have hsize : (a.deriveTimes x (n + 2)).size =
        1 + (a.deriveTimes x n).size + (a.deriveTimes x (n + 1)).size := by
      rw [h.deriveTimes_eq n, size]
    show Nat.fib (n + 3) ≤ _
    have hsucc' : Nat.fib (n + 2) ≤ (a.deriveTimes x (n + 1)).size := hsucc
    omega

end Returns

end Language

namespace Expression

/-! ### One letter or two, again and again -/

def onesAndTwos : Expression := .zeroOrMore (.or (.literal 'a') (.lit "aa"))

theorem onesAndTwos_returns : onesAndTwos.build.Returns (.char 'a') where
  stubborn := ⟨rfl, fun _ => rfl⟩
  stubborn_derive := ⟨rfl, fun _ => rfl⟩
  derive_derive := by decide +kernel

/-- The derivative of `(a|aa)*` by `n` letters `a` has at least as many nodes as the Fibonacci
number of `n + 1` says, though it is the same language for every `n`. -/
theorem fib_le_size_onesAndTwos (n : Nat) :
    Nat.fib (n + 1) ≤ (onesAndTwos.build.deriveWord (symbols (List.replicate n 'a'))).size := by
  have hsymbols : symbols (List.replicate n 'a') = List.replicate n (.char 'a') :=
    List.map_replicate
  rw [hsymbols]
  exact onesAndTwos_returns.fib_le_size n

/-- There is an expression for which no number bounds the sizes of its derivatives. -/
theorem size_deriveWord_not_bounded :
    ¬∀ e : Expression, ∃ bound, ∀ text : List Char,
      (e.build.deriveWord (symbols text)).size ≤ bound := by
  intro h
  obtain ⟨bound, hbound⟩ := h onesAndTwos
  have hle := hbound (List.replicate (bound + 2) 'a')
  have hsymbols : symbols (List.replicate (bound + 2) 'a') =
      List.replicate (bound + 2) (.char 'a') := List.map_replicate
  have hfib : Nat.fib (bound + 3) ≤
      (onesAndTwos.build.deriveWord (List.replicate (bound + 2) (.char 'a'))).size :=
    onesAndTwos_returns.fib_le_size (bound + 2)
  have hgrow : bound + 3 ≤ Nat.fib (bound + 3) + 1 := Nat.le_fib_add_one (bound + 3)
  rw [hsymbols] at hle
  omega

end Expression

end DerivativeLexer
