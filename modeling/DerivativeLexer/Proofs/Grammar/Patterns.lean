import DerivativeLexer.Grammar.Literal
import DerivativeLexer.Proofs.Language.Derivative

/-! # What the patterns of the grammars match

The texts of the patterns that both grammars are made of: fixed texts, single characters, blanks
and comments. Only the end of the input itself reads the end mark. -/

namespace DerivativeLexer

open DerivativeLexer.Language (symbols)

namespace Language

open Computability

variable {P : Char → Prop} {A : FormalLanguage Symbol} {a : Language} {p : List Char}
  {w : List Symbol} {s : String}

/-- The tree has a place where the end mark is read. -/
def readsEnd : Language → Bool
  | endOfInput => true
  | concat a b | union a b => a.readsEnd || b.readsEnd
  | star a | power a _ => a.readsEnd
  | literal _ | charSet _ | negatedCharSet _ | anyChar | emptyLanguage | emptyString => false

theorem readsEnd_followedBy {b : Language} (ha : a.readsEnd = false) (hb : b.readsEnd = false) :
    (a.followedBy b).readsEnd = false := by
  unfold followedBy
  split_ifs
  · exact hb
  · exact ha
  · rfl
  · rw [readsEnd, ha, hb, Bool.or_false]

theorem readsEnd_text (cs : List Char) : (text cs).readsEnd = false := by
  induction cs with
  | nil => rfl
  | cons c rest ih =>
    cases rest with
    | nil => rfl
    | cons d more => exact readsEnd_followedBy rfl ih

theorem readsEnd_lit (s : String) : (lit s).readsEnd = false := readsEnd_text s.toList

/-- The tree has a place where the symbol is read. -/
def reads (x : Symbol) : Language → Bool
  | literal c => x = .char c
  | charSet s =>
    match x with
    | .char c => c ∈ s
    | .endMark => false
  | negatedCharSet s =>
    match x with
    | .char c => c ∉ s
    | .endMark => false
  | anyChar => x ≠ .endMark
  | endOfInput => x = .endMark
  | emptyLanguage | emptyString => false
  | concat a b | union a b => a.reads x || b.reads x
  | star a | power a _ => a.reads x

theorem notMem_charWords {x : Symbol} (hx : ∀ c, P c → x ≠ .char c) (h : w ∈ charWords P) :
    x ∉ w := by
  obtain ⟨c, hc, rfl⟩ := h
  rw [List.mem_singleton]
  exact hx c hc

theorem notMem_pow {x : Symbol} (hA : ∀ v ∈ A, x ∉ v) {n : Nat} (h : w ∈ A ^ n) : x ∉ w := by
  induction n generalizing w with
  | zero =>
    rw [pow_zero, Language.mem_one] at h
    rw [h]
    exact List.not_mem_nil
  | succ n ih =>
    rw [pow_succ', Language.mem_mul] at h
    obtain ⟨u, hu, v, hv, rfl⟩ := h
    rw [List.mem_append, not_or]
    exact ⟨hA u hu, ih hv⟩

/-- A symbol that the tree reads nowhere is in none of its words. -/
theorem notMem_of_reads {x : Symbol} (ha : a.reads x = false) (h : w ∈ a.words) : x ∉ w := by
  induction a generalizing w with
  | literal c =>
    refine notMem_charWords (fun d hd hx => ?_) h
    subst hd hx
    simp [reads] at ha
  | charSet s =>
    refine notMem_charWords (fun d hd hx => ?_) h
    subst hx
    simp [reads, hd] at ha
  | negatedCharSet s =>
    refine notMem_charWords (fun d hd hx => ?_) h
    subst hx
    simp [reads, hd] at ha
  | anyChar =>
    refine notMem_charWords (fun d hd hx => ?_) h
    subst hx
    simp [reads] at ha
  | endOfInput =>
    rw [Set.mem_singleton_iff.1 h, List.mem_singleton]
    simpa [reads] using ha
  | emptyLanguage => exact (Language.notMem_zero w h).elim
  | emptyString =>
    rw [(Language.mem_one w).1 h]
    exact List.not_mem_nil
  | concat a b iha ihb =>
    rw [reads, Bool.or_eq_false_iff] at ha
    obtain ⟨u, hu, v, hv, rfl⟩ := (Language.mem_mul).1 h
    rw [List.mem_append, not_or]
    exact ⟨iha ha.1 hu, ihb ha.2 hv⟩
  | union a b iha ihb =>
    rw [reads, Bool.or_eq_false_iff] at ha
    rcases (Language.mem_add _ _ _).1 h with h | h
    · exact iha ha.1 h
    · exact ihb ha.2 h
  | star a ih =>
    rw [words, Language.mem_kstar_iff_exists_nonempty] at h
    obtain ⟨pieces, rfl, hpieces⟩ := h
    intro hmem
    obtain ⟨piece, hpiece, hmem⟩ := List.mem_flatten.1 hmem
    exact ih ha (hpieces piece hpiece).1 hmem
  | power a n ih => exact notMem_pow (fun v hv => ih ha hv) h

theorem reads_endMark (a : Language) : a.reads .endMark = a.readsEnd := by
  induction a with
  | concat a b iha ihb => rw [reads, readsEnd, iha, ihb]
  | union a b iha ihb => rw [reads, readsEnd, iha, ihb]
  | star a ih => exact ih
  | power a n ih => exact ih
  | _ => simp [reads, readsEnd]

theorem endMark_notMem (ha : a.readsEnd = false) (h : w ∈ a.words) : .endMark ∉ w :=
  notMem_of_reads ((reads_endMark a).trans ha) h

/-! ### Single characters and fixed texts -/

theorem symbols_injective : Function.Injective symbols :=
  List.map_injective_iff.2 fun _ _ h => Symbol.char.inj h

theorem symbols_mem_charWords : symbols p ∈ charWords P ↔ ∃ c, P c ∧ p = [c] := by
  rw [mem_charWords]
  refine exists_congr fun c => and_congr_right fun _ => ?_
  exact ⟨fun h => symbols_injective h, fun h => congrArg symbols h⟩

theorem symbols_mem_charWords_mul :
    symbols p ∈ charWords P * A ↔ ∃ c q, P c ∧ symbols q ∈ A ∧ p = c :: q := by
  rw [Language.mem_mul]
  constructor
  · rintro ⟨u, ⟨c, hc, rfl⟩, v, hv, hp⟩
    cases p with
    | nil => cases hp
    | cons d q =>
      obtain ⟨hd, rfl⟩ := List.cons.inj hp
      cases hd
      exact ⟨c, q, hc, hv, rfl⟩
  · rintro ⟨c, q, hc, hq, rfl⟩
    exact ⟨[.char c], ⟨c, hc, rfl⟩, symbols q, hq, rfl⟩

theorem symbols_mem_kstar_charWords : symbols p ∈ (charWords P)∗ ↔ ∀ c ∈ p, P c := by
  induction p with
  | nil => exact ⟨fun _ c hc => (nomatch hc), fun _ => Language.nil_mem_kstar _⟩
  | cons c q ih =>
    rw [← Language.one_add_self_mul_kstar_eq_kstar, Language.mem_add, symbols_mem_charWords_mul,
      List.forall_mem_cons, ← ih]
    constructor
    · rintro (h | ⟨d, q', hd, hq', heq⟩)
      · cases (Language.mem_one _).1 h
      · obtain ⟨rfl, rfl⟩ := List.cons.inj heq
        exact ⟨hd, hq'⟩
    · rintro ⟨hc, hq⟩
      exact .inr ⟨c, q, hc, hq, rfl⟩

theorem symbols_mem_lit : symbols p ∈ (lit s).words ↔ p = s.toList := by
  rw [lit, words_text]
  constructor
  · intro h
    exact symbols_injective (Set.mem_singleton_iff.1 h)
  · intro h
    exact Set.mem_singleton_iff.2 (congrArg symbols h)

theorem symbols_mem_anyChar : symbols p ∈ anyChar.words ↔ ∃ c, p = [c] := by
  rw [words, symbols_mem_charWords]
  simp only [true_and]

theorem symbols_mem_lit_anyChar :
    symbols p ∈ ((lit s).followedBy anyChar).words ↔ ∃ c, p = s.toList ++ [c] := by
  rw [words_followedBy, lit, words_text, Language.mem_mul]
  constructor
  · rintro ⟨u, rfl, v, ⟨c, -, rfl⟩, hp⟩
    refine ⟨c, symbols_injective (hp.symm.trans ?_)⟩
    rw [symbols, symbols, List.map_append]
    rfl
  · rintro ⟨c, rfl⟩
    refine ⟨_, rfl, [.char c], ⟨c, trivial, rfl⟩, ?_⟩
    rw [symbols, symbols, List.map_append]
    rfl

/-- What stands before a character that is not in the introducer of a character literal is all of
the introducer. -/
theorem eq_of_symbols_mem_lit_anyChar {c : Char} {q : List Char}
    (h : symbols (p ++ c :: q) ∈ ((lit s).followedBy anyChar).words) (hc : c ∉ s.toList) :
    p = s.toList := by
  obtain ⟨d, hd⟩ := symbols_mem_lit_anyChar.1 h
  rcases List.eq_nil_or_concat q with rfl | ⟨rest, e, rfl⟩
  · exact (List.append_inj' hd rfl).1
  · rw [List.concat_eq_append, ← List.cons_append, ← List.append_assoc] at hd
    refine (hc ?_).elim
    rw [← (List.append_inj' hd rfl).1]
    exact List.mem_append_right _ List.mem_cons_self

end Language

namespace Grammar

open DerivativeLexer.Language

variable {p : List Char}

theorem readsEnd_whitespace : whitespace.readsEnd = false := by decide +kernel

theorem readsEnd_comment : comment.readsEnd = false := by decide +kernel

theorem symbols_mem_whitespace :
    symbols p ∈ whitespace.words ↔ p ≠ [] ∧ ∀ c ∈ p, c ∈ [' ', '\r', '\t', '\n'] := by
  have hset : ∀ c, c ∈ CharSet.ofList " \r\t\n".toList ↔ c ∈ [' ', '\r', '\t', '\n'] :=
    fun c => CharSet.mem_ofList
  rw [whitespace, oneOf, words_oneOrMore, words, symbols_mem_charWords_mul]
  constructor
  · rintro ⟨c, q, hc, hq, rfl⟩
    rw [symbols_mem_kstar_charWords] at hq
    exact ⟨List.cons_ne_nil _ _,
      List.forall_mem_cons.2 ⟨(hset c).1 hc, fun d hd => (hset d).1 (hq d hd)⟩⟩
  · rintro ⟨hne, hblank⟩
    obtain ⟨c, q, rfl⟩ := List.exists_cons_of_ne_nil hne
    rw [List.forall_mem_cons] at hblank
    refine ⟨c, q, (hset c).2 hblank.1, ?_, rfl⟩
    rw [symbols_mem_kstar_charWords]
    exact fun d hd => (hset d).2 (hblank.2 d hd)

theorem mem_of_whitespace (h : symbols p ∈ whitespace.words) :
    ∀ c ∈ p, c ∈ [' ', '\r', '\t', '\n'] :=
  (symbols_mem_whitespace.1 h).2

theorem symbols_mem_comment :
    symbols p ∈ comment.words ↔ ∃ body, p = ';' :: body ∧ ∀ c ∈ body, c ≠ '\r' ∧ c ≠ '\n' := by
  have hset : ∀ c, c ∉ CharSet.ofList "\r\n".toList ↔ c ≠ '\r' ∧ c ≠ '\n' := by
    intro c
    rw [CharSet.mem_ofList]
    simp
  have hlead : (lit ";").words = charWords (· = ';') := rfl
  rw [comment, words_followedBy, hlead, symbols_mem_charWords_mul, noneOf, words_zeroOrMore, words]
  constructor
  · rintro ⟨c, q, rfl, hq, rfl⟩
    rw [symbols_mem_kstar_charWords] at hq
    exact ⟨q, rfl, fun c hc => (hset c).1 (hq c hc)⟩
  · rintro ⟨body, rfl, hbody⟩
    refine ⟨';', body, rfl, ?_, rfl⟩
    rw [symbols_mem_kstar_charWords]
    exact fun c hc => (hset c).2 (hbody c hc)

end Grammar

end DerivativeLexer
