import DerivativeLexer.Proofs.Language.Expression

/-! # Trees without idle nodes

The combinators leave out what cannot matter, so that not every tree can come about. In those that
can, no node has an operand that makes it pointless: nothing is put behind or in front of a language
that rejects everything or has the empty word alone, no side of a union is a part of the other one,
and a power counts at least two. The combinators look at no more than the attributes and the kind of
their operands, and derivatives pass their results on to each other. So the property is one of whole
trees: it is kept by every combinator, and from that by every derivative. -/

namespace DerivativeLexer

namespace Language

/-! ### The trees inside a tree -/

def operands : Language → List Language
  | concat a b | union a b => [a, b]
  | star a | power a _ => [a]
  | _ => []

/-- A tree and all trees inside of it, each before its operands. -/
def parts : Language → List Language
  | concat a b => concat a b :: (a.parts ++ b.parts)
  | union a b => union a b :: (a.parts ++ b.parts)
  | star a => star a :: a.parts
  | power a n => power a n :: a.parts
  | leaf => [leaf]

/-- The trees inside of a tree, without itself. -/
def innerParts (a : Language) : List Language := a.operands.flatMap parts

theorem parts_eq (a : Language) : a.parts = a :: a.innerParts := by
  cases a with
  | concat a b => simp [parts, innerParts, operands]
  | union a b => simp [parts, innerParts, operands]
  | star a => simp [parts, innerParts, operands]
  | power a n => simp [parts, innerParts, operands]
  | _ => rfl

theorem mem_parts_self (a : Language) : a ∈ a.parts := by
  rw [parts_eq]
  exact List.mem_cons_self

theorem mem_parts_of_operand {a b c : Language} (hb : b ∈ a.operands) (hc : c ∈ b.parts) :
    c ∈ a.parts := by
  rw [parts_eq]
  exact List.mem_cons_of_mem a (List.mem_flatMap.2 ⟨b, hb, hc⟩)

theorem operands_induction {P : Language → Prop} (h : ∀ a, (∀ b ∈ a.operands, P b) → P a)
    (a : Language) : P a := by
  induction a with
  | concat a b iha ihb => exact h _ (by simp [operands, iha, ihb])
  | union a b iha ihb => exact h _ (by simp [operands, iha, ihb])
  | star a ih => exact h _ (by simp [operands, ih])
  | power a n ih => exact h _ (by simp [operands, ih])
  | _ => exact h _ (by simp [operands])

theorem mem_parts_trans {a b c : Language} (hb : b ∈ a.parts) (hc : c ∈ b.parts) :
    c ∈ a.parts := by
  induction a using operands_induction with
  | h a ih =>
    rw [parts_eq] at hb
    rcases List.mem_cons.1 hb with rfl | hb
    · exact hc
    · obtain ⟨d, hd, hbd⟩ := List.mem_flatMap.1 hb
      exact mem_parts_of_operand hd (ih d hd hbd)

/-- What is inside of a tree is an operand there. -/
theorem exists_of_mem_innerParts {a b : Language} (hb : b ∈ a.innerParts) :
    ∃ c ∈ a.parts, b ∈ c.operands := by
  induction a using operands_induction with
  | h a ih =>
    obtain ⟨d, hd, hbd⟩ := List.mem_flatMap.1 hb
    rw [parts_eq] at hbd
    rcases List.mem_cons.1 hbd with rfl | hbd
    · exact ⟨a, a.mem_parts_self, hd⟩
    · obtain ⟨c, hc, hbc⟩ := ih d hd hbd
      exact ⟨c, mem_parts_of_operand hd hc, hbc⟩

/-! ### Tight nodes -/

/-- The node itself rejects everything: it is one of the three leaves that no symbol passes. -/
def IsVoid (a : Language) : Prop :=
  a = .emptyLanguage ∨ a = .charSet .empty ∨
    ∃ s : CharSet, (∀ c, c ∈ s) ∧ a = .negatedCharSet s

/-- The language has a word that is not empty. -/
structure Solid (a : Language) : Prop where
  rejects_eq : a.rejectsAll = false
  onlyEmpty_eq : a.onlyEmpty = false

/-- What a node asks of its operands. -/
def Tight : Language → Prop
  | concat a b => a.Solid ∧ b.Solid
  | union a b =>
    (a.rejectsAll = false ∧ b.rejectsAll = false) ∧ a ≠ b ∧ a.within b = false ∧
      b.within a = false
  | star a => a.isStar = false ∧ a.Solid
  | power a n => 2 ≤ n ∧ a.Solid
  | _ => True

instance (a : Language) : Decidable a.Solid :=
  decidable_of_iff (a.rejectsAll = false ∧ a.onlyEmpty = false)
    ⟨fun h => ⟨h.1, h.2⟩, fun h => ⟨h.rejects_eq, h.onlyEmpty_eq⟩⟩

instance (a : Language) : Decidable a.Tight :=
  match a with
  | concat a b => inferInstanceAs (Decidable (a.Solid ∧ b.Solid))
  | union a b =>
    inferInstanceAs (Decidable ((a.rejectsAll = false ∧ b.rejectsAll = false) ∧ a ≠ b ∧
      a.within b = false ∧ b.within a = false))
  | star a => inferInstanceAs (Decidable (a.isStar = false ∧ a.Solid))
  | power a n => inferInstanceAs (Decidable (2 ≤ n ∧ a.Solid))
  | literal _ | charSet _ | negatedCharSet _ | anyChar | endOfInput | emptyLanguage |
    emptyString => .isTrue trivial

theorem Tight.operands_alive {a b : Language} (h : a.Tight) (hb : b ∈ a.operands) :
    b.rejectsAll = false := by
  cases a with
  | concat a₁ a₂ =>
    rcases List.mem_pair.1 hb with rfl | rfl
    · exact h.1.rejects_eq
    · exact h.2.rejects_eq
  | union a₁ a₂ =>
    rcases List.mem_pair.1 hb with rfl | rfl
    · exact h.1.1
    · exact h.1.2
  | star a =>
    rw [List.mem_singleton.1 hb]
    exact h.2.rejects_eq
  | power a n =>
    rw [List.mem_singleton.1 hb]
    exact h.2.rejects_eq
  | _ => cases hb

/-- Every node of the tree is tight. -/
def Normal (a : Language) : Prop := ∀ b ∈ a.parts, b.Tight

instance (a : Language) : Decidable a.Normal :=
  List.decidableBAll (fun b : Language => b.Tight) a.parts

namespace Normal

variable {a b : Language} {n : Nat}

theorem tight (h : a.Normal) : a.Tight := h a a.mem_parts_self

theorem concat_iff : (concat a b).Normal ↔ (a.Solid ∧ b.Solid) ∧ a.Normal ∧ b.Normal := by
  simp only [Normal, parts, List.mem_cons, List.mem_append, or_imp, forall_and, forall_eq, Tight]

theorem union_iff :
    (union a b).Normal ↔
      ((a.rejectsAll = false ∧ b.rejectsAll = false) ∧ a ≠ b ∧ a.within b = false ∧
        b.within a = false) ∧ a.Normal ∧ b.Normal := by
  simp only [Normal, parts, List.mem_cons, List.mem_append, or_imp, forall_and, forall_eq, Tight]

theorem star_iff : (star a).Normal ↔ (a.isStar = false ∧ a.Solid) ∧ a.Normal := by
  simp only [Normal, parts, List.mem_cons, or_imp, forall_and, forall_eq, Tight]

theorem power_iff : (power a n).Normal ↔ (2 ≤ n ∧ a.Solid) ∧ a.Normal := by
  simp only [Normal, parts, List.mem_cons, or_imp, forall_and, forall_eq, Tight]

theorem of_leaf (hparts : a.parts = [a]) (htight : a.Tight) : a.Normal := by
  intro b hb
  rw [hparts, List.mem_singleton] at hb
  rwa [hb]

theorem emptyLanguage : Language.emptyLanguage.Normal := .of_leaf rfl trivial

theorem emptyString : Language.emptyString.Normal := .of_leaf rfl trivial

/-! ### Combinators -/

theorem followedBy (ha : a.Normal) (hb : b.Normal) : (a.followedBy b).Normal := by
  unfold Language.followedBy
  split_ifs with ha' hb' hz
  · exact hb
  · exact ha
  · exact .emptyLanguage
  · rw [Bool.or_eq_true, not_or, Bool.not_eq_true, Bool.not_eq_true] at hz
    rw [Bool.not_eq_true] at ha' hb'
    exact concat_iff.2 ⟨⟨⟨hz.1, ha'⟩, ⟨hz.2, hb'⟩⟩, ha, hb⟩

theorem or (ha : a.Normal) (hb : b.Normal) : (a.or b).Normal := by
  unfold Language.or
  split_ifs with hza hzb hab hba
  · exact hb
  · exact ha
  · exact hb
  · exact ha
  · rw [Bool.or_eq_true, not_or, Bool.not_eq_true, beq_iff_eq] at hzb
    rw [Bool.not_eq_true] at hza hab hba
    exact union_iff.2 ⟨⟨⟨hza, hzb.1⟩, hzb.2, hab, hba⟩, ha, hb⟩

theorem zeroOrMore (ha : a.Normal) : a.zeroOrMore.Normal := by
  unfold Language.zeroOrMore
  split_ifs with ha' hz
  · exact ha
  · exact .emptyString
  · rw [Bool.or_eq_true, not_or, Bool.not_eq_true, Bool.not_eq_true] at ha'
    rw [Bool.not_eq_true] at hz
    exact star_iff.2 ⟨⟨ha'.2, hz, ha'.1⟩, ha⟩

theorem oneOrMore (ha : a.Normal) : a.oneOrMore.Normal := by
  unfold Language.oneOrMore
  split_ifs
  · exact ha
  · exact .emptyLanguage
  · exact ha.followedBy ha.zeroOrMore

theorem optional (ha : a.Normal) : a.optional.Normal := by
  unfold Language.optional
  split_ifs
  · exact ha
  · exact .emptyString
  · exact Normal.or .emptyString ha

theorem replicate (ha : a.Normal) (n : Nat) : (a.replicate n).Normal := by
  match n with
  | 0 => exact .emptyString
  | 1 => exact ha
  | n + 2 =>
    unfold Language.replicate
    split_ifs with ha' hz
    · exact .emptyString
    · exact .emptyLanguage
    · rw [Bool.not_eq_true] at ha' hz
      exact power_iff.2 ⟨⟨Nat.le_add_left 2 n, hz, ha'⟩, ha⟩

theorem text (cs : List Char) : (Language.text cs).Normal := by
  match cs with
  | [] => exact .emptyString
  | [c] => exact .of_leaf rfl trivial
  | c :: d :: rest => exact Normal.followedBy (.of_leaf rfl trivial) (text (d :: rest))

/-! ### Derivatives -/

theorem derivePower {d : Language} (ha : a.Normal) (hd : d.Normal) (n : Nat) :
    (Language.derivePower a d n).Normal := by
  induction n using Nat.twoStepInduction with
  | zero => exact .emptyLanguage
  | one => exact hd
  | more n _ ih =>
    have hhead : (d.followedBy (a.replicate (n + 1))).Normal := hd.followedBy (ha.replicate _)
    rw [Language.derivePower]
    split_ifs
    · exact .emptyLanguage
    · exact hhead.or ih
    · exact hhead

/-- What a node derives to is built by the combinators out of its operands and what these derive
to. -/
theorem derive (x : Symbol) (ha : a.Normal) : (a.derive x).Normal := by
  have hchoice : ∀ (p : Prop) [Decidable p],
      (if p then Language.emptyString else Language.emptyLanguage).Normal := by
    intro p _
    split_ifs
    · exact .emptyString
    · exact .emptyLanguage
  induction a with
  | literal c => exact hchoice _
  | charSet s =>
    cases x with
    | char c => exact hchoice _
    | endMark => exact .emptyLanguage
  | negatedCharSet s =>
    cases x with
    | char c =>
      simp only [Language.derive]
      split_ifs
      · exact .emptyLanguage
      · exact .emptyString
    | endMark => exact .emptyLanguage
  | anyChar =>
    cases x with
    | char c => exact .emptyString
    | endMark => exact .emptyLanguage
  | endOfInput => exact hchoice _
  | emptyLanguage => exact .emptyLanguage
  | emptyString => exact .emptyLanguage
  | concat a b iha ihb =>
    obtain ⟨-, hna, hnb⟩ := concat_iff.1 ha
    have hhead := (iha hna).followedBy hnb
    simp only [Language.derive]
    split_ifs
    · exact hhead.or (ihb hnb)
    · exact hhead
  | union a b iha ihb =>
    obtain ⟨-, hna, hnb⟩ := union_iff.1 ha
    exact (iha hna).or (ihb hnb)
  | star a ih => exact (ih (star_iff.1 ha).2).followedBy ha
  | power a n ih =>
    have hna := (power_iff.1 ha).2
    exact hna.derivePower (ih hna) n

/-! ### What the attributes say of normal trees -/

/-- The empty word alone has only one tree. -/
theorem onlyEmpty_iff_eq (h : a.Normal) : a.onlyEmpty = true ↔ a = .emptyString := by
  refine ⟨fun honly => ?_, fun heq => heq ▸ rfl⟩
  induction a with
  | emptyString => rfl
  | concat a b _ _ =>
    have hsolid := (concat_iff.1 h).1.1
    simp [Language.onlyEmpty, hsolid.onlyEmpty_eq] at honly
  | union a b iha ihb =>
    -- both sides would be the empty word alone, and so the same
    obtain ⟨⟨⟨hza, hzb⟩, hne, -⟩, hna, hnb⟩ := union_iff.1 h
    simp only [Language.onlyEmpty, hza, hzb, Bool.or_false, Bool.and_false, Bool.not_false,
      Bool.true_and, Bool.and_eq_true] at honly
    exact (hne ((iha hna honly.1).trans (ihb hnb honly.2).symm)).elim
  | star a _ =>
    have hsolid := (star_iff.1 h).1.2
    simp [Language.onlyEmpty, hsolid.onlyEmpty_eq, hsolid.rejects_eq] at honly
  | power a n _ =>
    obtain ⟨⟨hn, hsolid⟩, -⟩ := power_iff.1 h
    obtain ⟨n, rfl⟩ := Nat.exists_eq_add_of_le' (Nat.le_of_succ_le hn)
    simp [Language.onlyEmpty, hsolid.onlyEmpty_eq] at honly
  | _ => cases honly

theorem rejectsAll_iff_isVoid (h : a.Normal) : a.rejectsAll = true ↔ a.IsVoid := by
  constructor
  · intro hrejects
    cases a with
    | emptyLanguage => exact .inl rfl
    | charSet s =>
      obtain ⟨members, ascending⟩ := s
      obtain rfl : members = [] := List.isEmpty_iff.1 hrejects
      exact .inr (.inl rfl)
    | negatedCharSet s =>
      rw [rejectsAll, decide_eq_true_iff, CharSet.scalarCount_le_size_iff] at hrejects
      exact .inr (.inr ⟨s, hrejects, rfl⟩)
    | concat a b =>
      obtain ⟨hsolid, hsolid'⟩ := (concat_iff.1 h).1
      simp [rejectsAll, hsolid.rejects_eq, hsolid'.rejects_eq] at hrejects
    | union a b =>
      have hrejected := (union_iff.1 h).1.1
      simp [rejectsAll, hrejected.1] at hrejects
    | power a n =>
      obtain ⟨⟨hn, hsolid⟩, -⟩ := power_iff.1 h
      obtain ⟨n, rfl⟩ := Nat.exists_eq_add_of_le' (Nat.le_of_succ_le hn)
      simp [rejectsAll, hsolid.rejects_eq] at hrejects
    | _ => cases hrejects
  · rintro (rfl | rfl | ⟨s, hall, rfl⟩)
    · rfl
    · rfl
    · rw [rejectsAll, decide_eq_true_iff, CharSet.scalarCount_le_size_iff]
      exact hall

/-- A tree that rejects everything does so at its root, if at all. -/
theorem innerParts_alive (h : a.Normal) (hb : b ∈ a.innerParts) : b.rejectsAll = false := by
  obtain ⟨c, hc, hoperand⟩ := exists_of_mem_innerParts hb
  exact (h c hc).operands_alive hoperand

theorem of_mem_parts (h : a.Normal) (hb : b ∈ a.parts) : b.Normal :=
  fun _ hc => h _ (mem_parts_trans hb hc)

end Normal

/-! ### Derivatives with a guarded count -/

/-- A power of one less is smaller also where it is written otherwise. -/
theorem sizeOf_replicate_lt (a : Language) (n : Nat) :
    sizeOf (a.replicate n) < sizeOf (power a (n + 1)) := by
  match n with
  | 0 => simp [replicate]
  | 1 =>
    simp only [replicate, power.sizeOf_spec]
    omega
  | n + 2 =>
    unfold replicate
    split_ifs
    · simp only [emptyString.sizeOf_spec, power.sizeOf_spec, sizeOf_nat]
      omega
    · simp only [emptyLanguage.sizeOf_spec, power.sizeOf_spec, sizeOf_nat]
      omega
    · simp

/-- The derivative node by node, where a power is taken for one word of its operand and one power
less. There is none where that would be less than no power. -/
def deriveGuarded (x : Symbol) : Language → Option Language
  | concat a b => do
    let head := (← a.deriveGuarded x).followedBy b
    if a.acceptsEmpty then return head.or (← b.deriveGuarded x) else return head
  | union a b => do return (← a.deriveGuarded x).or (← b.deriveGuarded x)
  | star a => do return (← a.deriveGuarded x).followedBy (star a)
  | power _ 0 => none
  | power a (n + 1) => do
    let rest := a.replicate n
    let head := (← a.deriveGuarded x).followedBy rest
    if a.acceptsEmpty then return head.or (← rest.deriveGuarded x) else return head
  | leaf => some (leaf.derive x)
termination_by a => sizeOf a
decreasing_by
  · decreasing_tactic
  · decreasing_tactic
  · decreasing_tactic
  · decreasing_tactic
  · decreasing_tactic
  · decreasing_tactic
  · exact sizeOf_replicate_lt a n

theorem derivePower_of_solid {a : Language} (h : a.Solid) (d : Language) (n : Nat) :
    derivePower a d (n + 2) =
      if a.acceptsEmpty then
        (d.followedBy (a.replicate (n + 1))).or (derivePower a d (n + 1))
      else d.followedBy (a.replicate (n + 1)) := by
  simp [derivePower, h.rejects_eq, h.onlyEmpty_eq]

theorem derive_replicate_of_solid {a : Language} (h : a.Solid) (x : Symbol) (n : Nat) :
    (a.replicate (n + 1)).derive x = derivePower a (a.derive x) (n + 1) := by
  cases n with
  | zero => rfl
  | succ n => simp [replicate, h.rejects_eq, h.onlyEmpty_eq, derive]

/-- Of a normal tree the guard takes nothing away. -/
theorem deriveGuarded_eq (x : Symbol) {a : Language} (h : a.Normal) :
    a.deriveGuarded x = some (a.derive x) := by
  fun_induction deriveGuarded x a with
  | case1 a b iha ihb =>
    obtain ⟨-, hna, hnb⟩ := Normal.concat_iff.1 h
    rw [iha hna, ihb hnb, derive]
    cases a.acceptsEmpty with
    | true => rfl
    | false => rfl
  | case2 a b iha ihb =>
    obtain ⟨-, hna, hnb⟩ := Normal.union_iff.1 h
    rw [iha hna, ihb hnb]
    rfl
  | case3 a ih =>
    rw [ih (Normal.star_iff.1 h).2]
    rfl
  | case4 a => exact (Nat.not_succ_le_zero 1 (Normal.power_iff.1 h).1.1).elim
  | case5 a n rest iha ihrest =>
    obtain ⟨⟨hn, hsolid⟩, hna⟩ := Normal.power_iff.1 h
    obtain ⟨m, rfl⟩ := Nat.exists_eq_add_of_le' (Nat.le_of_succ_le_succ hn)
    rw [iha hna, ihrest (hna.replicate (m + 1)), derive_replicate_of_solid hsolid, derive,
      derivePower_of_solid hsolid]
    cases a.acceptsEmpty with
    | true => rfl
    | false => rfl
  | case6 leaf => rfl

end Language

namespace Expression

theorem normal_build (e : Expression) : e.build.Normal := by
  induction e with
  | followedBy a b iha ihb => exact iha.followedBy ihb
  | or a b iha ihb => exact iha.or ihb
  | zeroOrMore a ih => exact ih.zeroOrMore
  | oneOrMore a ih => exact ih.oneOrMore
  | optional a ih => exact ih.optional
  | replicate a n ih => exact ih.replicate n
  | derive x a ih => exact ih.derive x
  | lit s => exact .text s.toList
  | _ => exact .of_leaf rfl trivial

/-- Every tree that the constructors and derivatives build is in normal form: each of its nodes is
tight, the empty word alone has one tree, and nothing has only its three leaves, which never stand
inside of another tree. So the count of a power can always be taken down by one. -/
theorem build_in_normal_form (e : Expression) :
    (∀ a ∈ e.build.parts, a.Tight ∧ (a.onlyEmpty = true ↔ a = .emptyString) ∧
        (a.rejectsAll = true ↔ a.IsVoid)) ∧
      (∀ a ∈ e.build.innerParts, a.rejectsAll = false) ∧
      ∀ x, e.build.deriveGuarded x = some (e.build.derive x) := by
  have hnormal := e.normal_build
  refine ⟨fun a ha => ?_, fun a ha => hnormal.innerParts_alive ha,
    fun x => Language.deriveGuarded_eq x hnormal⟩
  have hpart := hnormal.of_mem_parts ha
  exact ⟨hpart.tight, hpart.onlyEmpty_iff_eq, hpart.rejectsAll_iff_isVoid⟩

example : ¬(Language.power (.literal 'a') 0).Normal := by decide

end Expression

end DerivativeLexer
