import DerivativeLexer.Proofs.Decimal.Written

/-! # Reading undoes writing

A value whose texts all stand for characters and whose numbers are written properly is read back
from what it is written as. Texts survive because every character is written as one piece, plain or
escaped, which is read as that character again. -/

namespace DerivativeLexer

namespace Json

variable {c : Char} {rest : List Char}

/-! ### Characters -/

/-- The piece is read off what the character is written as, and stands for it. -/
structure StandsFor (piece : TextPiece) (c : Char) : Prop where
  read : ∀ rest, readPieces (renderChar c ++ rest) =
    (readPieces rest).map fun found => (piece :: found.1, found.2)
  join : ∀ pieces, joinPieces (piece :: pieces) = (joinPieces pieces).map (c :: ·)

theorem joinPieces_char (c : Char) (pieces : List TextPiece) :
    joinPieces (.char c :: pieces) = (joinPieces pieces).map (c :: ·) := by
  rw [joinPieces]
  cases joinPieces pieces <;> rfl

/-- A unit that is no half of a pair stands for its character, whatever comes next. -/
theorem joinPieces_unit {n : Nat} (hn : n < 0xD800) (hc : scalar? n = some c)
    (pieces : List TextPiece) :
    joinPieces (.unit n :: pieces) = (joinPieces pieces).map (c :: ·) := by
  have hhalf : ¬(decide (0xD800 ≤ n) && decide (n < 0xDC00)) = true := by
    simp [Nat.not_le.2 hn]
  -- the equations of the function tell apart what comes next, but all have the same outcome
  generalize hjoined : joinPieces pieces = joined
  have hcons : (do let c ← scalar? n; pure (c :: (← joined))) = joined.map (c :: ·) := by
    rw [hc]
    cases joined <;> rfl
  cases pieces with
  | nil =>
    rw [joinPieces, hjoined, hcons]
    exact fun _ _ h => List.cons_ne_nil _ _ h.symm
  | cons piece more =>
    cases piece with
    | char d =>
      rw [joinPieces, hjoined, hcons]
      exact fun _ _ h => TextPiece.noConfusion (List.cons.inj h).1
    | unit m => rw [joinPieces, if_neg hhalf, hjoined, hcons]

theorem readPieces_escape {e : Char} (he : e ≠ 'u') (hc : shortEscape? e = some c)
    (rest : List Char) : readPieces ('\\' :: e :: rest) =
      (readPieces rest).map fun found => (.char c :: found.1, found.2) := by
  rw [readPieces, hc]
  · cases readPieces rest <;> rfl
  · exact fun _ _ _ _ _ h => (he h).elim

theorem readPieces_plain (hquote : c ≠ '"') (hescape : c ≠ '\\') (hcontrol : ¬c.toNat < 0x20)
    (rest : List Char) : readPieces (c :: rest) =
      (readPieces rest).map fun found => (.char c :: found.1, found.2) := by
  rw [readPieces]
  · rw [if_neg (by simp [hescape, hcontrol])]
    cases readPieces rest <;> rfl
  · exact hquote
  · exact fun _ _ _ _ _ h => (hescape h).elim
  · exact fun _ _ h => (hescape h).elim

theorem readPieces_unit {a b c d : Char} {n : Nat} (hn : hexUnit? a b c d = some n)
    (rest : List Char) : readPieces ('\\' :: 'u' :: a :: b :: c :: d :: rest) =
      (readPieces rest).map fun found => (.unit n :: found.1, found.2) := by
  rw [readPieces, hn]
  cases readPieces rest <;> rfl

theorem hexUnit?_hexByte : ∀ n < 0x20, hexUnit? '0' '0' (Nat.digitChar (n / 16))
    (Nat.digitChar (n % 16)) = some n := by
  decide

/-- The three ways in which a character is written. -/
theorem renderChar_cases (c : Char) :
    (∃ e, renderChar c = ['\\', e] ∧ e ≠ 'u' ∧ shortEscape? e = some c) ∨
    (c.toNat < 0x20 ∧ renderChar c = ['\\', 'u', '0', '0'] ++ hexByte c.toNat) ∨
    (c ≠ '"' ∧ c ≠ '\\' ∧ ¬c.toNat < 0x20 ∧ renderChar c = [c]) := by
  unfold renderChar
  split_ifs with hquote hescape _ _ _ _ _ hcontrol
  on_goal 8 => exact .inr (.inl ⟨hcontrol, rfl⟩)
  on_goal 8 => exact .inr (.inr ⟨hquote, hescape, hcontrol, rfl⟩)
  all_goals
    subst c
    exact .inl ⟨_, rfl, by decide, rfl⟩

theorem exists_standsFor (c : Char) : ∃ piece, StandsFor piece c := by
  rcases renderChar_cases c with ⟨e, hrender, he, hc⟩ | ⟨hcontrol, hrender⟩ |
    ⟨hquote, hescape, hcontrol, hrender⟩
  · refine ⟨.char c, fun rest => ?_, joinPieces_char c⟩
    rw [hrender]
    exact readPieces_escape he hc rest
  · refine ⟨.unit c.toNat, fun rest => ?_, joinPieces_unit (by omega) (scalar?_toNat c)⟩
    rw [hrender]
    exact readPieces_unit (hexUnit?_hexByte _ hcontrol) rest
  · refine ⟨.char c, fun rest => ?_, joinPieces_char c⟩
    rw [hrender]
    exact readPieces_plain hquote hescape hcontrol rest

/-! ### Texts -/

theorem readPieces_flatMap (s rest : List Char) : ∃ pieces,
    readPieces (s.flatMap renderChar ++ '"' :: rest) = some (pieces, rest) ∧
      joinPieces pieces = some s := by
  induction s with
  | nil => exact ⟨[], rfl, rfl⟩
  | cons c s ih =>
    obtain ⟨pieces, hread, hjoin⟩ := ih
    obtain ⟨piece, hpiece⟩ := exists_standsFor c
    refine ⟨piece :: pieces, ?_, ?_⟩
    · rw [List.flatMap_cons, List.append_assoc, hpiece.read, hread, Option.map_some]
    · rw [hpiece.join, hjoin, Option.map_some]

/-- Behind its opening quote, a text is read up to the closing one. -/
theorem readText_render (s rest : List Char) :
    readText (s.flatMap renderChar ++ '"' :: rest) = some (some s, rest) := by
  obtain ⟨pieces, hread, hjoin⟩ := readPieces_flatMap s rest
  rw [readText, hread, ← hjoin]
  rfl

theorem renderText_append (s rest : List Char) :
    renderText s ++ rest = '"' :: (s.flatMap renderChar ++ '"' :: rest) := by
  rw [renderText, List.cons_append, List.append_assoc, List.singleton_append]

/-! ### Values -/

/-- Every text stands for characters, and every number is written properly. -/
inductive Proper : Json → Prop where
  | null : Proper null
  | bool (b : Bool) : Proper (bool b)
  | number {n : DecimalText} (h : n.Proper) : Proper (number n)
  | text (s : List Char) : Proper (text (some s))
  | list {items : List Json} (h : ∀ j ∈ items, Proper j) : Proper (list items)
  | object {members : List (Option (List Char) × Json)} (hnames : ∀ m ∈ members, m.1.isSome)
      (hvalues : ∀ m ∈ members, Proper m.2) : Proper (object members)

/-- The value is taken off the front of every text that goes on after it, with twice its length
for fuel. -/
def Reads (j : Json) : Prop :=
  ∀ fuel rest, 2 * j.render.length ≤ fuel + 1 → EndsNumber rest →
    readValue (fuel + 1) (j.render ++ rest) = some (j, rest)

theorem skipBlanks_cons (hc : isBlank c = false) (rest : List Char) :
    skipBlanks (c :: rest) = c :: rest :=
  List.dropWhile_cons_of_neg (by rw [hc]; exact Bool.false_ne_true)

theorem isBlank_of_number (hc : c = '-' ∨ c.isDigit = true) : isBlank c = false := by
  by_contra h
  rw [Bool.not_eq_false, isBlank] at h
  simp only [Bool.or_eq_true, decide_eq_true_eq] at h
  rcases h with ((rfl | rfl) | rfl) | rfl <;> exact absurd hc (by decide)

/-- What begins a number begins nothing else. -/
theorem readValue_number (hc : c = '-' ∨ c.isDigit = true) (fuel : Nat) (rest : List Char) :
    readValue (fuel + 1) (c :: rest) =
      (readNumber (c :: rest)).map fun found => (number found.1, found.2) := by
  rw [readValue, skipBlanks_cons (isBlank_of_number hc)]
  split
  case h_7 => rfl
  all_goals
    obtain ⟨rfl, -⟩ := List.cons.inj ‹c :: rest = _›
    exact absurd hc (by decide)

/-- No value begins with a blank or a closing bracket. -/
theorem render_eq_cons {j : Json} (hj : j.Proper) :
    ∃ c cs, j.render = c :: cs ∧ isBlank c = false ∧ c ≠ ']' := by
  cases hj with
  | null => exact ⟨'n', _, rfl, by decide⟩
  | bool b => cases b <;> exact ⟨_, _, rfl, by decide⟩
  | number h =>
    obtain ⟨c, cs, hcs, hc⟩ := DerivativeLexer.head_render h
    refine ⟨c, cs, hcs, isBlank_of_number hc, ?_⟩
    rintro rfl
    exact absurd hc (by decide)
  | text s => exact ⟨'"', _, rfl, by decide⟩
  | list h => exact ⟨'[', _, rfl, by decide⟩
  | object hnames hvalues => exact ⟨'\x7b', _, rfl, by decide⟩

theorem endsNumber_cons (hc : c.isDigit = false ∧ c ≠ '.' ∧ c ≠ 'e' ∧ c ≠ 'E')
    (rest : List Char) : EndsNumber (c :: rest) := by
  intro d hd
  obtain rfl : c = d := Option.some.inj hd
  exact hc

theorem renderItems_eq_cons {j : Json} (items : List Json) (hj : j.Proper) :
    ∃ c cs, renderItems (j :: items) = c :: cs ∧ isBlank c = false ∧ c ≠ ']' := by
  obtain ⟨c, cs, hcs, hc⟩ := render_eq_cons hj
  cases items with
  | nil => exact ⟨c, cs ++ [']'], by rw [renderItems, hcs, List.cons_append], hc⟩
  | cons k more =>
    refine ⟨c, cs ++ ',' :: renderItems (k :: more), ?_, hc⟩
    rw [renderItems, hcs, List.cons_append]
    exact List.cons_ne_nil k more

theorem renderMembers_eq_cons (m : Option (List Char) × Json)
    (members : List (Option (List Char) × Json)) :
    ∃ cs, renderMembers (m :: members) = '"' :: cs := by
  obtain ⟨name, j⟩ := m
  cases members with
  | nil => exact ⟨_, rfl⟩
  | cons n more => exact ⟨_, rfl⟩

/-- An item is read up to what stands behind it: the end of the list, or a comma. Members likewise
below. -/
theorem readItems_last {j : Json} {fuel : Nat} {cs : List Char}
    (hvalue : readValue fuel cs = some (j, ']' :: rest)) :
    readItems (fuel + 1) cs = some ([j], rest) := by
  rw [readItems, hvalue]
  simp only [skipBlanks_cons (c := ']') rfl]

theorem readItems_more {j : Json} {fuel : Nat} {cs : List Char}
    (hvalue : readValue fuel cs = some (j, ',' :: rest)) : readItems (fuel + 1) cs =
      (readItems fuel rest).map fun found => (j :: found.1, found.2) := by
  rw [readItems, hvalue]
  simp only [skipBlanks_cons (c := ',') rfl]

/-- A list that goes on behind its opening bracket is read item by item. -/
theorem readItems_render {items : List Json} (hne : items ≠ [])
    (hitems : ∀ j ∈ items, Reads j) {fuel : Nat}
    (hfuel : 2 * (renderItems items).length ≤ fuel) :
    readItems fuel (renderItems items ++ rest) = some (items, rest) := by
  -- an item takes one unit of fuel for itself, so its successors have to do with less
  induction items generalizing fuel with
  | nil => exact (hne rfl).elim
  | cons j items ih =>
    cases items with
    | nil =>
      simp only [renderItems, List.length_append, List.length_singleton] at hfuel
      obtain ⟨fuel, rfl⟩ := Nat.exists_eq_add_of_le' (show 2 ≤ fuel by omega)
      have hend : EndsNumber (']' :: rest) := endsNumber_cons (by decide) rest
      rw [renderItems, List.append_assoc, List.singleton_append,
        readItems_last (hitems j List.mem_cons_self fuel _ (by omega) hend)]
    | cons k more =>
      simp only [renderItems, List.length_append, List.length_cons] at hfuel
      obtain ⟨fuel, rfl⟩ := Nat.exists_eq_add_of_le' (show 2 ≤ fuel by omega)
      have hend : EndsNumber (',' :: (renderItems (k :: more) ++ rest)) :=
        endsNumber_cons (by decide) _
      have hmore : readItems (fuel + 1) (renderItems (k :: more) ++ rest) =
          some (k :: more, rest) :=
        ih (List.cons_ne_nil k more) (fun i hi => hitems i (List.mem_cons_of_mem j hi)) (by omega)
      rw [renderItems, List.append_assoc, List.cons_append,
        readItems_more (hitems j List.mem_cons_self fuel _ (by omega) hend), hmore, Option.map_some]
      exact List.cons_ne_nil k more

theorem readMembers_last {name : Option (List Char)} {j : Json} {fuel : Nat} {cs more : List Char}
    (hname : readText cs = some (name, ':' :: more))
    (hvalue : readValue fuel more = some (j, '\x7d' :: rest)) :
    readMembers (fuel + 1) ('"' :: cs) = some ([(name, j)], rest) := by
  rw [readMembers, skipBlanks_cons rfl]
  simp only [hname, skipBlanks_cons (c := ':') rfl, hvalue, skipBlanks_cons (c := '\x7d') rfl]

theorem readMembers_more {name : Option (List Char)} {j : Json} {fuel : Nat} {cs more : List Char}
    (hname : readText cs = some (name, ':' :: more))
    (hvalue : readValue fuel more = some (j, ',' :: rest)) :
    readMembers (fuel + 1) ('"' :: cs) =
      (readMembers fuel rest).map fun found => ((name, j) :: found.1, found.2) := by
  rw [readMembers, skipBlanks_cons rfl]
  simp only [hname, skipBlanks_cons (c := ':') rfl, hvalue, skipBlanks_cons (c := ',') rfl]

theorem readMembers_render {members : List (Option (List Char) × Json)} (hne : members ≠ [])
    (hnames : ∀ m ∈ members, m.1.isSome) (hvalues : ∀ m ∈ members, Reads m.2) {fuel : Nat}
    (hfuel : 2 * (renderMembers members).length ≤ fuel) :
    readMembers fuel (renderMembers members ++ rest) = some (members, rest) := by
  induction members generalizing fuel with
  | nil => exact (hne rfl).elim
  | cons m members ih =>
    obtain ⟨name, j⟩ := m
    obtain ⟨s, rfl⟩ := Option.isSome_iff_exists.1 (hnames _ List.mem_cons_self)
    have hj : Reads j := hvalues _ List.mem_cons_self
    cases members with
    | nil =>
      simp only [renderMembers, List.length_append, List.length_cons, List.length_nil] at hfuel
      obtain ⟨fuel, rfl⟩ := Nat.exists_eq_add_of_le' (show 2 ≤ fuel by omega)
      have hend : EndsNumber ('\x7d' :: rest) := endsNumber_cons (by decide) rest
      rw [renderMembers, Option.getD_some, List.append_assoc, renderText_append, List.cons_append,
        List.append_assoc, List.singleton_append,
        readMembers_last (readText_render s _) (hj fuel _ (by omega) hend)]
    | cons n more =>
      simp only [renderMembers, List.length_append, List.length_cons] at hfuel
      obtain ⟨fuel, rfl⟩ := Nat.exists_eq_add_of_le' (show 2 ≤ fuel by omega)
      have hend : EndsNumber (',' :: (renderMembers (n :: more) ++ rest)) :=
        endsNumber_cons (by decide) _
      have hmore : readMembers (fuel + 1) (renderMembers (n :: more) ++ rest) =
          some (n :: more, rest) :=
        ih (List.cons_ne_nil n more) (fun i hi => hnames i (List.mem_cons_of_mem _ hi))
          (fun i hi => hvalues i (List.mem_cons_of_mem _ hi)) (by omega)
      rw [renderMembers, Option.getD_some, List.append_assoc, renderText_append, List.cons_append,
        List.append_assoc, List.cons_append,
        readMembers_more (readText_render s _) (hj fuel _ (by omega) hend), hmore,
        Option.map_some]
      exact List.cons_ne_nil n more

/-- What does not close a list or an object right after its beginning is read as its first part. -/
theorem readValue_list (hblank : isBlank c = false) (hclose : c ≠ ']') (fuel : Nat)
    (rest : List Char) : readValue (fuel + 1) ('[' :: c :: rest) =
      (readItems fuel (c :: rest)).map fun found => (list found.1, found.2) := by
  rw [readValue, skipBlanks_cons rfl]
  simp only [skipBlanks_cons hblank]
  split
  next heq => exact (hclose (List.cons.inj heq).1).elim
  next => rfl

theorem readValue_object (hblank : isBlank c = false) (hclose : c ≠ '\x7d') (fuel : Nat)
    (rest : List Char) : readValue (fuel + 1) ('\x7b' :: c :: rest) =
      (readMembers fuel (c :: rest)).map fun found => (object found.1, found.2) := by
  rw [readValue, skipBlanks_cons rfl]
  simp only [skipBlanks_cons hblank]
  split
  next heq => exact (hclose (List.cons.inj heq).1).elim
  next => rfl

theorem reads_list {items : List Json} (hproper : ∀ j ∈ items, Proper j)
    (hreads : ∀ j ∈ items, Reads j) : Reads (list items) := by
  intro fuel rest hfuel _
  simp only [render, List.length_cons] at hfuel
  cases items with
  | nil => rfl
  | cons j more =>
    have hitems : readItems fuel (renderItems (j :: more) ++ rest) = some (j :: more, rest) :=
      readItems_render (List.cons_ne_nil j more) hreads (by omega)
    obtain ⟨c, cs, hcs, hblank, hclose⟩ :=
      renderItems_eq_cons more (hproper j List.mem_cons_self)
    rw [hcs, List.cons_append] at hitems
    rw [render, hcs, List.cons_append, List.cons_append, readValue_list hblank hclose, hitems,
      Option.map_some]

theorem reads_object {members : List (Option (List Char) × Json)}
    (hnames : ∀ m ∈ members, m.1.isSome) (hreads : ∀ m ∈ members, Reads m.2) :
    Reads (object members) := by
  intro fuel rest hfuel _
  simp only [render, List.length_cons] at hfuel
  cases members with
  | nil => rfl
  | cons m more =>
    have hmembers : readMembers fuel (renderMembers (m :: more) ++ rest) = some (m :: more, rest) :=
      readMembers_render (List.cons_ne_nil m more) hnames hreads (by omega)
    obtain ⟨cs, hcs⟩ := renderMembers_eq_cons m more
    rw [hcs, List.cons_append] at hmembers
    rw [render, hcs, List.cons_append, List.cons_append,
      readValue_object (by decide) (by decide), hmembers, Option.map_some]

/-- A value is read from what it is written as, whatever goes on behind it. -/
theorem Proper.reads {j : Json} (hj : j.Proper) : j.Reads := by
  induction hj with
  | null => exact fun _ _ _ _ => rfl
  | bool b => cases b <;> exact fun _ _ _ _ => rfl
  | number h =>
    intro fuel rest _ hend
    obtain ⟨c, cs, hcs, hc⟩ := DerivativeLexer.head_render h
    have hread := readNumber_render h hend
    rw [hcs, List.cons_append] at hread
    rw [render, hcs, List.cons_append, readValue_number hc, hread, Option.map_some]
  | text s =>
    intro fuel rest _ _
    rw [render, Option.getD_some, renderText_append, readValue, skipBlanks_cons rfl]
    change Option.map _ (readText _) = _
    rw [readText_render, Option.map_some]
  | list h ih => exact reads_list h ih
  | object hnames _ ih => exact reads_object hnames ih

/-- Reading undoes writing. -/
theorem read?_render {j : Json} (hj : j.Proper) : read? j.render = some j := by
  have hread : readValue (2 * j.render.length + 2) (j.render ++ []) = some (j, []) :=
    hj.reads _ _ (by omega) nofun
  rw [List.append_nil] at hread
  rw [read?, hread]
  rfl

end Json

end DerivativeLexer
