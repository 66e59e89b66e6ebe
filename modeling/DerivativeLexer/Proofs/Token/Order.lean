import DerivativeLexer.Token.Order

/-! # The order of tokens is lawful

A kind is determined by its class, a number and a text, and is compared by them, one after the
other. So the kinds have a total order in which only equal ones are level, and from it the tokens
get one. Sorting puts tokens in order and leaves those that are equal as they were. -/

namespace DerivativeLexer

variable {α β : Type}

/-- The order is total, and only equal values are level in it. -/
structure LawfulOrder (order : α → α → Ordering) : Prop where
  swap : ∀ a b, order b a = (order a b).swap
  total : ∀ a b, (order a b).isLE = true ∨ (order b a).isLE = true
  antisymm : ∀ a b, (order a b).isLE = true → (order b a).isLE = true → a = b
  trans : ∀ a b c, (order a b).isLE = true → (order b c).isLE = true → (order a c).isLE = true
  eq_iff : ∀ a b, order a b = .eq ↔ a = b

theorem LawfulOrder.of_transCmp {order : α → α → Ordering} (h : Std.TransCmp order)
    (heq : ∀ a b, order a b = .eq → a = b) : LawfulOrder order where
  swap := fun _ _ => Std.OrientedCmp.eq_swap
  total := by
    intro a b
    have hswap : order b a = (order a b).swap := h.eq_swap
    rw [hswap]
    cases order a b with
    | lt => exact .inl rfl
    | eq => exact .inl rfl
    | gt => exact .inr rfl
  antisymm := fun a b hab hba => heq a b (Std.OrientedCmp.isLE_antisymm hab hba)
  trans := fun _ _ _ => Std.TransCmp.isLE_trans
  eq_iff := by
    refine fun a b => ⟨heq a b, ?_⟩
    rintro rfl
    exact Std.ReflCmp.compare_self

/-- Values are compared by something else that belongs to them. -/
theorem transCmp_comap {order : α → α → Ordering} (h : Std.TransCmp order) (f : β → α) :
    Std.TransCmp fun a b => order (f a) (f b) where
  eq_swap := h.eq_swap
  isLE_trans := h.isLE_trans

/-! ### Numbers -/

theorem compare_eq_compare {v w : Int} {m n : Nat} (hlt : v < w ↔ m < n) (heq : v = w ↔ m = n) :
    compare v w = compare m n := by
  show compareOfLessAndEq v w = compareOfLessAndEq m n
  simp only [compareOfLessAndEq, hlt, heq]

theorem compare_natCast (m n : Nat) : compare (m : Int) (n : Int) = compare m n :=
  compare_eq_compare Int.ofNat_lt Int.ofNat_inj

theorem compare_of_lt {v w : Int} (h : v < w) : compare v w = .lt := if_pos h

theorem compare_of_gt {v w : Int} (h : w < v) : compare v w = .gt := by
  have hswap : compare v w = (compare w v).swap := Std.OrientedOrd.eq_swap
  rw [hswap, compare_of_lt h]
  rfl

namespace Binary64

/-- The order of bit patterns: those with a sign come first, and the larger the earlier. -/
def bitOrder (x y : Binary64) : Ordering :=
  match x.isNegative, y.isNegative with
  | true, false => .lt
  | false, true => .gt
  | false, false => compare x.bits.toNat y.bits.toNat
  | true, true => compare y.bits.toNat x.bits.toNat

theorem compare_orderKey (x y : Binary64) : compare x.orderKey y.orderKey = x.bitOrder y := by
  have hx := x.toNat_eq
  have hy := y.toNat_eq
  unfold bitOrder orderKey
  cases hxn : x.isNegative <;> cases hyn : y.isNegative <;>
    simp only [hxn, hyn, Bool.false_eq_true, if_false, if_true] at hx hy ⊢
  · exact compare_eq_compare (by omega) (by omega)
  · exact compare_of_gt (by omega)
  · exact compare_of_lt (by omega)
  · exact compare_eq_compare (by omega) (by omega)

end Binary64

/-! ### Kinds -/

namespace TokenKind

/-- The number that a kind is compared by, within its class. -/
def number : TokenKind → Int
  | integer n => n.toInt
  | decimal x => x.orderKey
  | char c => c.toNat
  | boolean b => b.toNat
  | malformed e _ => e.rank
  | opening _ | closing _ | punct _ | symbol _ | string _ | keyword _ => 0

/-- The text that a kind is compared by, within its class. -/
def text : TokenKind → String
  | opening s | closing s | punct s | symbol s | string s | keyword s | malformed _ s => s
  | integer _ | decimal _ | char _ | boolean _ => ""

/-- Two kinds of one class. -/
inductive Alike : TokenKind → TokenKind → Prop
  | opening (s t : String) : Alike (opening s) (opening t)
  | closing (s t : String) : Alike (closing s) (closing t)
  | punct (s t : String) : Alike (punct s) (punct t)
  | symbol (s t : String) : Alike (symbol s) (symbol t)
  | integer (m n : Int64) : Alike (integer m) (integer n)
  | decimal (x y : Binary64) : Alike (decimal x) (decimal y)
  | string (s t : String) : Alike (string s) (string t)
  | char (c d : Char) : Alike (char c) (char d)
  | boolean (b c : Bool) : Alike (boolean b) (boolean c)
  | keyword (s t : String) : Alike (keyword s) (keyword t)
  | malformed (e f : TokenTag) (r s : String) : Alike (malformed e r) (malformed f s)

variable {a b : TokenKind}

theorem alike_of_tag_eq (h : a.tag = b.tag) : Alike a b := by
  cases a <;> cases b <;> cases h <;> constructor

theorem valueOrder_eq (h : Alike a b) :
    a.valueOrder b = (compare a.number b.number).then (compare a.text b.text) := by
  have htext : compare "" "" = .eq := Std.ReflCmp.compare_self
  cases h with
  | char c d =>
    rw [number, number, compare_natCast, text, text, htext, Ordering.then_eq, valueOrder]
  | boolean b c =>
    rw [number, number, compare_natCast, text, text, htext, Ordering.then_eq, valueOrder]
  | malformed e f r s => rw [number, number, compare_natCast]; rfl
  | integer m n => rw [text, text, htext, Ordering.then_eq]; rfl
  | decimal x y => rw [text, text, htext, Ordering.then_eq]; rfl
  | _ => rfl

theorem rank_ne (h : a.tag ≠ b.tag) : compare a.tag.rank b.tag.rank ≠ .eq :=
  fun heq => h (TokenTag.rank_injective (Std.LawfulEqCmp.eq_of_compare heq))

/-- Kinds of different classes are ordered by their classes alone. -/
theorem order_of_tag_ne (h : a.tag ≠ b.tag) :
    a.order b = a.tag.order b.tag ∧ a.order b ≠ .eq := by
  have hne := rank_ne h
  have horder : a.order b = a.tag.order b.tag := by
    rw [order, TokenTag.order]
    cases hrank : compare a.tag.rank b.tag.rank with
    | eq => exact (hne hrank).elim
    | lt => rfl
    | gt => rfl
  exact ⟨horder, horder ▸ hne⟩

/-- Kinds are compared by their classes, their numbers and their texts. -/
theorem order_eq (a b : TokenKind) : a.order b = (compare a.tag.rank b.tag.rank).then
    ((compare a.number b.number).then (compare a.text b.text)) := by
  by_cases h : a.tag = b.tag
  · rw [order, valueOrder_eq (alike_of_tag_eq h), TokenTag.order]
  · rw [(order_of_tag_ne h).1, TokenTag.order]
    cases hrank : compare a.tag.rank b.tag.rank with
    | eq => exact (rank_ne h hrank).elim
    | lt => rfl
    | gt => rfl

/-- Class, number and text determine a kind. -/
theorem eq_of_alike (h : Alike a b) (hnumber : a.number = b.number) (htext : a.text = b.text) :
    a = b := by
  cases h with
  | integer m n => exact congrArg integer (Int64.toInt_inj.1 hnumber)
  | decimal x y => exact congrArg decimal (Binary64.orderKey_injective hnumber)
  | char c d => exact congrArg char (Char.toNat_inj.1 (Int.ofNat.inj hnumber))
  | boolean b c =>
    have hbits : b.toNat = c.toNat := Int.ofNat.inj hnumber
    revert hbits
    cases b <;> cases c <;> decide
  | malformed e f r s =>
    obtain rfl := TokenTag.rank_injective (Int.ofNat.inj hnumber)
    exact congrArg (malformed e) htext
  | opening s t => exact congrArg opening htext
  | closing s t => exact congrArg closing htext
  | punct s t => exact congrArg punct htext
  | symbol s t => exact congrArg symbol htext
  | string s t => exact congrArg string htext
  | keyword s t => exact congrArg keyword htext

theorem transCmp_order : Std.TransCmp order := by
  have hlex : order = compareLex (compareOn fun a => a.tag.rank)
      (compareLex (compareOn number) (compareOn text)) := by
    funext a b
    exact order_eq a b
  rw [hlex]
  infer_instance

theorem eq_of_order (h : a.order b = .eq) : a = b := by
  rw [order_eq, Ordering.then_eq_eq, Ordering.then_eq_eq] at h
  obtain ⟨hrank, hnumber, htext⟩ := h
  have htag : a.tag = b.tag := TokenTag.rank_injective (Std.LawfulEqCmp.eq_of_compare hrank)
  exact eq_of_alike (alike_of_tag_eq htag) (Std.LawfulEqCmp.eq_of_compare hnumber)
    (Std.LawfulEqCmp.eq_of_compare htext)

theorem lawfulOrder : LawfulOrder order := .of_transCmp transCmp_order fun _ _ => eq_of_order

theorem same_iff : a.same b = true ↔ a = b := beq_iff_eq.trans (lawfulOrder.eq_iff a b)

end TokenKind

/-! ### Tokens -/

namespace Position

variable {p q : Position}

theorem transCmp_order : Std.TransCmp order :=
  inferInstanceAs (Std.TransCmp (compareLex (compareOn offset)
    (compareLex (compareOn line) (compareOn column))))

theorem eq_of_order (h : p.order q = .eq) : p = q := by
  rw [order, Ordering.then_eq_eq, Ordering.then_eq_eq] at h
  obtain ⟨hoffset, hline, hcolumn⟩ := h
  cases p
  cases q
  rw [mk.injEq]
  exact ⟨Std.LawfulEqCmp.eq_of_compare hoffset, Std.LawfulEqCmp.eq_of_compare hline,
    Std.LawfulEqCmp.eq_of_compare hcolumn⟩

end Position

namespace Token

variable {a b : Token}

theorem transCmp_order : Std.TransCmp order := by
  have hkind := transCmp_comap TokenKind.transCmp_order kind
  have hstart := transCmp_comap Position.transCmp_order fun t : Token => t.span.start
  have hstop := transCmp_comap Position.transCmp_order fun t : Token => t.span.stop
  exact inferInstanceAs (Std.TransCmp (compareLex (fun a b => a.kind.order b.kind)
    (compareLex (fun a b => a.span.start.order b.span.start)
      (compareLex (fun a b => a.span.stop.order b.span.stop) (compareOn lexeme)))))

theorem eq_of_order (h : a.order b = .eq) : a = b := by
  rw [order, Ordering.then_eq_eq, Ordering.then_eq_eq, Ordering.then_eq_eq] at h
  obtain ⟨hkind, hstart, hstop, hlexeme⟩ := h
  obtain ⟨kind, lexeme, start, stop⟩ := a
  obtain ⟨kind', lexeme', start', stop'⟩ := b
  obtain rfl : kind = kind' := TokenKind.eq_of_order hkind
  obtain rfl : start = start' := Position.eq_of_order hstart
  obtain rfl : stop = stop' := Position.eq_of_order hstop
  obtain rfl : lexeme = lexeme' := Std.LawfulEqCmp.eq_of_compare hlexeme
  rfl

theorem lawfulOrder : LawfulOrder order := .of_transCmp transCmp_order fun _ _ => eq_of_order

theorem same_iff_parts :
    a.same b = true ↔ a.kind = b.kind ∧ a.lexeme = b.lexeme ∧ a.span = b.span := by
  rw [same, Bool.and_eq_true, Bool.and_eq_true, TokenKind.same_iff, beq_iff_eq, beq_iff_eq,
    and_assoc]

theorem same_iff : a.same b = true ↔ a = b := by
  rw [same_iff_parts]
  cases a
  cases b
  rw [mk.injEq]

/-! ### Sorting -/

/-- The order of places in a list: by the tokens, and by the places where they are equal. -/
def placeOrder (a b : Token × Nat) : Prop := a.1.order b.1 = .lt ∨ a.1 = b.1 ∧ a.2 < b.2

theorem sort_perm (tokens : List Token) : (sort tokens).Perm tokens := List.mergeSort_perm _ _

theorem isLE_trans (a b c : Token) (hab : (a.order b).isLE = true) (hbc : (b.order c).isLE = true) :
    (a.order c).isLE = true :=
  lawfulOrder.trans a b c hab hbc

theorem isLE_total (a b : Token) : ((a.order b).isLE || (b.order a).isLE) = true :=
  Bool.or_eq_true_iff.2 (lawfulOrder.total a b)

theorem pairwise_sort (tokens : List Token) :
    (sort tokens).Pairwise fun a b => (a.order b).isLE = true :=
  List.pairwise_mergeSort isLE_trans isLE_total tokens

theorem placeOrder_of_le {a b : Token × Nat} (hne : a.2 ≠ b.2)
    (h : List.zipIdxLE (fun a b : Token => (a.order b).isLE) a b = true) : placeOrder a b := by
  cases horder : a.1.order b.1 with
  | lt => exact .inl horder
  | eq =>
    have hback : (b.1.order a.1).isLE = true := by
      rw [lawfulOrder.swap, horder]
      rfl
    have hle : a.2 ≤ b.2 := by simpa [List.zipIdxLE, horder, hback] using h
    exact .inr ⟨eq_of_order horder, Nat.lt_of_le_of_ne hle hne⟩
  | gt => simp [List.zipIdxLE, horder] at h

/-- The places of the tokens, sorted along with them: equal tokens stay in their order. -/
theorem sort_places (tokens : List Token) : ∃ places : List (Token × Nat),
    places.Perm tokens.zipIdx ∧ places.map Prod.fst = sort tokens ∧ places.Pairwise placeOrder := by
  let places := tokens.zipIdx.mergeSort (List.zipIdxLE fun a b => (a.order b).isLE)
  have hperm : places.Perm tokens.zipIdx := List.mergeSort_perm _ _
  have hle := List.pairwise_mergeSort (List.zipIdxLE_trans isLE_trans)
    (List.zipIdxLE_total isLE_total) tokens.zipIdx
  have hplaces : (places.map Prod.snd).Nodup := by
    rw [(hperm.map Prod.snd).nodup_iff, List.zipIdx_map_snd]
    exact List.nodup_range'
  exact ⟨places, hperm, List.mergeSort_zipIdx,
    (hle.and (List.pairwise_map.1 hplaces)).imp fun h => placeOrder_of_le h.2 h.1⟩

/-- Kinds and tokens have lawful orders, in which just equal ones are level: kinds of one class and
one value, where decimals are ordered by their bit patterns, and tokens with the same kind, text and
place. Sorting puts any tokens in order, and leaves equal ones in the order they had. -/
theorem tokens_ordered (tokens : List Token) :
    (LawfulOrder TokenKind.order ∧ LawfulOrder order) ∧
      (∀ a b : TokenKind, (a.order b = .eq ↔ a.same b = true) ∧ (a.same b = true ↔ a = b) ∧
        (a.tag ≠ b.tag → a.order b = a.tag.order b.tag ∧ a.order b ≠ .eq)) ∧
      (∀ x y, (TokenKind.decimal x).order (.decimal y) = x.bitOrder y) ∧
      (∀ a b : Token, (a.order b = .eq ↔ a.same b = true) ∧
        (a.same b = true ↔ a.kind = b.kind ∧ a.lexeme = b.lexeme ∧ a.span = b.span)) ∧
      (sort tokens).Perm tokens ∧ (sort tokens).Pairwise (fun a b => (a.order b).isLE = true) ∧
      ∃ places : List (Token × Nat), places.Perm tokens.zipIdx ∧
        places.map Prod.fst = sort tokens ∧ places.Pairwise placeOrder := by
  refine ⟨⟨TokenKind.lawfulOrder, lawfulOrder⟩, ?_, ?_, ?_, sort_perm tokens,
    pairwise_sort tokens, sort_places tokens⟩
  · intro a b
    exact ⟨beq_iff_eq.symm, TokenKind.same_iff, TokenKind.order_of_tag_ne⟩
  · exact Binary64.compare_orderKey
  · intro a b
    exact ⟨(lawfulOrder.eq_iff a b).trans same_iff.symm, same_iff_parts⟩

theorem placeOrder_asymm {a b : Token × Nat} (hab : placeOrder a b) : ¬placeOrder b a := by
  have hself (t : Token) : t.order t ≠ .lt := by
    rw [(lawfulOrder.eq_iff t t).2 rfl]
    exact Ordering.noConfusion
  intro hba
  rcases hab with hlt | ⟨heq, hlt⟩ <;> rcases hba with hlt' | ⟨heq', hlt'⟩
  · rw [lawfulOrder.swap, hlt] at hlt'
    cases hlt'
  · exact hself a.1 (heq' ▸ hlt)
  · exact hself b.1 (heq ▸ hlt')
  · exact Nat.lt_asymm hlt hlt'

def zero : Token := ⟨.decimal (.zero false), "0.0", ⟨.start, .start⟩⟩

def negativeZero : Token := ⟨.decimal (.zero true), "-0.0", ⟨.start, .start⟩⟩

/-- What is no number equals itself, a negative zero comes before the other zero, and texts of
different classes are never level. A negative zero between two equal tokens comes first when they
are sorted, and the two stay in their order. -/
theorem tokens_ordered_sample :
    (TokenKind.decimal ⟨0x7ff8000000000000⟩).same (.decimal ⟨0x7ff8000000000000⟩) = true ∧
      (TokenKind.decimal (.zero true)).order (.decimal (.zero false)) = .lt ∧
      (TokenKind.symbol "a").tag ≠ (TokenKind.string "a").tag ∧
      (TokenKind.symbol "a").order (.string "a") ≠ .eq ∧
      sort [zero, negativeZero, zero] = [negativeZero, zero, zero] ∧
      ∃ places : List (Token × Nat), places.Perm [(zero, 0), (negativeZero, 1), (zero, 2)] ∧
        places.Pairwise placeOrder ∧ places = [(negativeZero, 1), (zero, 0), (zero, 2)] := by
  obtain ⟨⟨-, hlawful⟩, hkinds, hdecimals, -, hperm, hsorted, places, hplaces, -, hordered⟩ :=
    tokens_ordered [zero, negativeZero, zero]
  have htag : (TokenKind.symbol "a").tag ≠ (TokenKind.string "a").tag := by decide
  have hlt : negativeZero.order zero = .lt := by decide
  have heq : zero.order zero = .eq := (hlawful.eq_iff _ _).2 rfl
  refine ⟨(hkinds _ _).2.1.2 rfl, hdecimals _ _, htag, ((hkinds _ _).2.2 htag).2, ?_, places,
    hplaces, hordered, ?_⟩
  · refine List.Perm.eq_of_pairwise (fun a b _ _ => hlawful.antisymm a b) hsorted ?_
      (hperm.trans (.swap _ _ _))
    simp [hlt, heq]
  · refine List.Perm.eq_of_pairwise (fun a b _ _ hab hba => (placeOrder_asymm hab hba).elim)
      hordered ?_ (hplaces.trans (.swap _ _ _))
    simp [placeOrder, hlt]

end Token

end DerivativeLexer
