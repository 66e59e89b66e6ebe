import DerivativeLexer.Proofs.Json.RoundTrip
import DerivativeLexer.Token.Json

/-! # Tokens survive as data

Every part of a token is written as a value from which it is read again: positions and integers if
they fit 64 bits, texts and characters whatever they are, kinds by their class. Decimals depend on
the numbers of data, which the reader may round otherwise than they were written; one that is not
finite is written as nothing at all and lost. -/

namespace DerivativeLexer

namespace Json

/-! ### Records -/

variable {members : List (String × Json)}

theorem Proper.record (h : ∀ m ∈ members, m.2.Proper) : (record members).Proper := by
  refine .object (fun m hm => ?_) fun m hm => ?_
  · obtain ⟨m, -, rfl⟩ := List.mem_map.1 hm
    rfl
  · obtain ⟨m, hmem, rfl⟩ := List.mem_map.1 hm
    exact h m hmem

/-- A record with distinct names has one member of each name. -/
theorem filter_record (hnames : (members.map Prod.fst).Nodup) {m : String × Json}
    (hm : m ∈ members) :
    ((members.map fun m => (some m.1.toList, m.2)).filter fun n => n.1 == some m.1.toList) =
      [(some m.1.toList, m.2)] := by
  induction members with
  | nil => cases hm
  | cons n more ih =>
    have hsame : ∀ a b : String, (some a.toList == some b.toList) = true ↔ a = b := fun a b => by
      rw [beq_iff_eq, Option.some.injEq, String.toList_inj]
    rw [List.map_cons, List.nodup_cons] at hnames
    obtain ⟨hnew, hmore⟩ := hnames
    rw [List.map_cons, List.filter_cons]
    rcases List.mem_cons.1 hm with rfl | hm
    · -- no later member has the name again
      have hnone : ((more.map fun m => (some m.1.toList, m.2)).filter
          fun n => n.1 == some m.1.toList) = [] := by
        refine List.filter_eq_nil_iff.2 fun k hk heq => ?_
        obtain ⟨k, hmem, rfl⟩ := List.mem_map.1 hk
        exact hnew (List.mem_map.2 ⟨k, hmem, (hsame _ _).1 heq⟩)
      rw [if_pos ((hsame _ _).2 rfl), hnone]
    · rw [if_neg fun heq => hnew ?_]
      · exact ih hmore hm
      · exact List.mem_map.2 ⟨m, hm, ((hsame _ _).1 heq).symm⟩

/-- What is found for every entry is found for all of them. -/
theorem mapM_map_some {α β γ : Type} {f : α → β} {g : β → Option γ} {h : α → γ} {l : List α}
    (hg : ∀ a ∈ l, g (f a) = some (h a)) : (l.map f).mapM g = some (l.map h) := by
  induction l with
  | nil => rfl
  | cons a rest ih =>
    obtain ⟨ha, hrest⟩ := List.forall_mem_cons.1 hg
    rw [List.map_cons, List.mapM_cons, ha, ih hrest]
    rfl

/-- The fields of a record are found under their names. -/
theorem fields?_record {names : List String} (hnames : members.map Prod.fst = names)
    (hdistinct : names.Nodup) :
    (record members).fields? names = some (members.map Prod.snd) := by
  subst hnames
  have hcharacters : ((members.map fun m => (some m.1.toList, m.2)).all fun m => m.1.isSome) =
      true := by
    rw [List.all_map]
    exact List.all_eq_true.2 fun _ _ => rfl
  rw [record, fields?, if_pos hcharacters]
  refine mapM_map_some fun m hm => ?_
  rw [filter_record hdistinct hm]

theorem single?_record (name : String) (j : Json) :
    (record [(name, j)]).single? = some (name, j) := by
  rw [record, List.map_singleton, single?, String.ofList_toList]

theorem proper_ofString (s : String) : (ofString s).Proper := .text _

theorem string?_ofString (s : String) : (ofString s).string? = some s := by
  rw [ofString, string?, Option.map_some, String.ofList_toList]

end Json

/-! ### Numbers -/

/-- An integer is read back if it is one of 64 bits, with a sign or without. -/
theorem DecimalText.integer?_ofInt {n : Int} (hmin : minInteger ≤ n) (hmax : n < significandBound) :
    (ofInt n).integer? = some n := by
  have hvalue : digitsValue (Nat.toDigits 10 n.natAbs) = n.natAbs :=
    (digitsValue_eq _).trans (digitsNumber_toDigits _)
  unfold ofInt integer?
  refine (if_neg Bool.false_ne_true).trans ?_
  dsimp only
  rw [hvalue, minInteger, significandBound]
  rw [minInteger] at hmin
  rw [significandBound] at hmax
  by_cases hnegative : n < 0
  · have hfits : (decide (n.natAbs = 0) || decide (-(n.natAbs : Int) < -0x8000000000000000)) =
        false := by
      rw [Bool.or_eq_false_iff, decide_eq_false_iff_not, decide_eq_false_iff_not]
      omega
    have hn : -(n.natAbs : Int) = n := by omega
    rw [if_pos (decide_eq_true hnegative), hfits, if_neg Bool.false_ne_true, hn]
  · have hfits : n.natAbs < 0x10000000000000000 := by omega
    have hn : (n.natAbs : Int) = n := by omega
    rw [if_neg (by rwa [decide_eq_true_iff]), if_pos hfits, hn]

namespace Json

theorem natural?_ofInt {n : Nat} (h : n < significandBound) :
    (number (.ofInt n)).natural? = some n := by
  have hread : (DecimalText.ofInt n).integer? = some (n : Int) :=
    DecimalText.integer?_ofInt (by rw [minInteger]; omega) (Int.ofNat_lt.2 h)
  rw [natural?, hread, Option.bind_some, if_pos (Int.natCast_nonneg n), Int.toNat_natCast]

theorem integer?_ofInt (n : Int64) : (number (.ofInt n.toInt)).integer? = some n := by
  have hmin : minInteger ≤ n.toInt := Int64.le_toInt n
  have hmax : n.toInt ≤ maxInteger := Int64.toInt_le n
  have hread : (DecimalText.ofInt n.toInt).integer? = some n.toInt :=
    DecimalText.integer?_ofInt hmin (by rw [maxInteger] at hmax; rw [significandBound]; omega)
  rw [integer?, hread, Option.bind_some, fitInteger, if_neg (Int.not_lt.2 hmin),
    if_neg (Int.not_lt.2 hmax), Int64.ofInt_toInt]
  rfl

end Json

/-! ### Positions -/

open Json

/-- The counts of the position fit 64 bits. -/
structure Position.Fits (p : Position) : Prop where
  offset : p.offset < significandBound
  line : p.line < significandBound
  column : p.column < significandBound

structure Span.Fits (s : Span) : Prop where
  start : s.start.Fits
  stop : s.stop.Fits

theorem Position.proper_toJson (p : Position) : p.toJson.Proper :=
  .record (by simp [DecimalText.proper_ofInt, Proper.number])

theorem Position.ofJson?_toJson {p : Position} (h : p.Fits) : ofJson? p.toJson = some p := by
  have hfields : p.toJson.fields? ["offset", "line", "column"] = some
      [.number (.ofInt p.offset), .number (.ofInt p.line), .number (.ofInt p.column)] :=
    fields?_record rfl (by decide)
  rw [ofJson?, hfields]
  simp only [Option.bind_eq_bind, Option.bind_some, natural?_ofInt h.offset, natural?_ofInt h.line,
    natural?_ofInt h.column]
  rfl

theorem Span.proper_toJson (s : Span) : s.toJson.Proper :=
  .record (by simp [Position.proper_toJson])

theorem Span.ofJson?_toJson {s : Span} (h : s.Fits) : ofJson? s.toJson = some s := by
  have hfields : s.toJson.fields? ["start", "end"] = some [s.start.toJson, s.stop.toJson] :=
    fields?_record rfl (by decide)
  rw [ofJson?, hfields]
  simp only [Option.bind_eq_bind, Option.bind_some, Position.ofJson?_toJson h.start,
    Position.ofJson?_toJson h.stop]
  rfl

/-! ### Kinds -/

theorem TokenTag.ofJson?_toJson (t : TokenTag) : ofJson? t.toJson = some t := by
  rw [toJson, ofString, ofJson?, String.ofList_toList, ofLabel?_label]

namespace TokenKind

theorem proper_write (x : Binary64) : (dataDecimal.write x).Proper := by
  have hzero : ∀ c ∈ ['0'], c.isDigit = true := List.forall_mem_singleton.2 rfl
  exact DecimalFormat.proper_write hzero rfl x

theorem proper_valueToJson (k : TokenKind) : k.valueToJson.Proper := by
  cases k with
  | integer n => exact .number (DecimalText.proper_ofInt _)
  | decimal x =>
    rw [valueToJson]
    split_ifs
    · exact .number (proper_write x)
    · exact .null
  | char c => exact .text [c]
  | boolean b => exact .bool b
  | malformed expected reason =>
    exact .record (by simp [TokenTag.toJson, proper_ofString])
  | _ => exact proper_ofString _

theorem proper_toJson (k : TokenKind) : k.toJson.Proper :=
  .record (by simp [proper_valueToJson])

/-- A kind is read from its value, given its class. -/
theorem ofJson?_toJson (k : TokenKind) : ofJson? k.toJson = ofValue? k.tag k.valueToJson := by
  rw [ofJson?, toJson, single?_record]
  simp only [Option.bind_eq_bind, Option.bind_some, TokenTag.ofLabel?_label]

theorem ofValue?_of_not_decimal {k : TokenKind} (h : k.tag ≠ .decimal) :
    ofValue? k.tag k.valueToJson = some k := by
  cases k with
  | decimal x => exact (h rfl).elim
  | integer n => rw [tag, ofValue?, valueToJson, integer?_ofInt, Option.map_some]
  | char c => rfl
  | boolean b => rfl
  | malformed expected reason =>
    have hfields : (malformed expected reason).valueToJson.fields? ["expected", "reason"] =
        some [expected.toJson, ofString reason] :=
      fields?_record rfl (by decide)
    rw [tag, ofValue?, hfields]
    simp only [Option.bind_eq_bind, Option.bind_some, TokenTag.ofJson?_toJson, string?_ofString]
    rfl
  | _ s => exact congrArg (Option.map _) (string?_ofString s)

/-- A finite decimal is read as the number that the reader makes of it, any other not at all. -/
theorem ofValue?_decimal (x : Binary64) : ofValue? .decimal (decimal x).valueToJson =
    if x.isFinite then (dataDecimal.write x).binary?.map decimal else none := by
  rw [ofValue?, valueToJson]
  split_ifs <;> rfl

/-- A decimal is finite, and the reader makes the same number of it that was written; all other
kinds do not depend on the numbers of data. -/
def ReadsBack : TokenKind → Prop
  | decimal x => x.isFinite = true ∧ (dataDecimal.write x).binary? = some x
  | _ => True

theorem ofJson?_eq_some_iff {k : TokenKind} : ofJson? k.toJson = some k ↔ k.ReadsBack := by
  rw [ofJson?_toJson]
  cases k with
  | decimal x =>
    rw [tag, ofValue?_decimal, ReadsBack]
    split_ifs with hfinite
    · rw [Option.map_eq_some_iff, and_iff_right hfinite]
      exact ⟨fun ⟨y, hread, hy⟩ => hread.trans (congrArg some (decimal.inj hy)),
        fun hread => ⟨x, hread, rfl⟩⟩
    · exact ⟨nofun, fun h => (hfinite h.1).elim⟩
  | _ => exact iff_of_true (ofValue?_of_not_decimal nofun) trivial

theorem readsBack_of_not_decimal {k : TokenKind} (h : k.tag ≠ .decimal) : k.ReadsBack := by
  cases k with
  | decimal x => exact (h rfl).elim
  | _ => trivial

theorem ofJson?_of_not_finite {x : Binary64} (h : x.isFinite = false) :
    ofJson? (decimal x).toJson = none := by
  rw [ofJson?_toJson, tag, ofValue?_decimal, if_neg (by rw [h]; exact Bool.false_ne_true)]

end TokenKind

/-! ### Tokens -/

namespace Token

variable {t : Token}

theorem proper_toJson (t : Token) : t.toJson.Proper :=
  .record (by simp [TokenKind.proper_toJson, proper_ofString, Span.proper_toJson])

/-- A token is read back with whatever kind is read for its own. -/
theorem ofJson?_toJson (h : t.span.Fits) :
    ofJson? t.toJson = (TokenKind.ofJson? t.kind.toJson).map fun kind => { t with kind } := by
  have hfields : t.toJson.fields? ["kind", "lexeme", "span"] =
      some [t.kind.toJson, ofString t.lexeme, t.span.toJson] :=
    fields?_record rfl (by decide)
  rw [ofJson?, hfields]
  simp only [Option.bind_eq_bind, Option.bind_some, string?_ofString, Span.ofJson?_toJson h]
  cases TokenKind.ofJson? t.kind.toJson <;> rfl

theorem ofJson?_eq_some_iff (h : t.span.Fits) : ofJson? t.toJson = some t ↔ t.kind.ReadsBack := by
  rw [ofJson?_toJson h, ← TokenKind.ofJson?_eq_some_iff, Option.map_eq_some_iff]
  constructor
  · rintro ⟨kind, hread, heq⟩
    exact hread.trans (congrArg some (congrArg Token.kind heq))
  · exact fun hread => ⟨t.kind, hread, rfl⟩

theorem deserialize?_serialize (t : Token) : deserialize? (serialize t) = ofJson? t.toJson := by
  rw [deserialize?, serialize, String.toList_ofList, read?_render t.proper_toJson, Option.bind_some]

/-- Tokens that are written as one list are read back as that list. -/
theorem deserializeAll?_serializeAll {ts : List Token}
    (h : ∀ t ∈ ts, t.span.Fits ∧ t.kind.ReadsBack) :
    deserializeAll? (serializeAll ts) = some ts := by
  have hproper : (Json.list (ts.map toJson)).Proper :=
    .list (List.forall_mem_map.2 fun t _ => t.proper_toJson)
  have hread : (ts.map toJson).mapM ofJson? = some (ts.map id) :=
    mapM_map_some fun t ht => (ofJson?_eq_some_iff (h t ht).1).2 (h t ht).2
  rw [List.map_id] at hread
  rw [deserializeAll?, serializeAll, String.toList_ofList, read?_render hproper]
  exact hread

/-- A token that is written as data is read back as it was, whatever its strings and characters,
unless it is a decimal. A finite decimal is read back just if its number is, and one that is not
finite is refused. So two tokens that are read back are written differently unless they are
equal. -/
theorem tokens_return (h : t.span.Fits) :
    (t.tag ≠ .decimal → deserialize? (serialize t) = some t) ∧
      (∀ x, t.kind = .decimal x → x.isFinite = true →
        (deserialize? (serialize t) = some t ↔ (dataDecimal.write x).binary? = some x)) ∧
      (∀ x, t.kind = .decimal x → x.isFinite = false → deserialize? (serialize t) = none) ∧
      ∀ u : Token, u.span.Fits → t.kind.ReadsBack → u.kind.ReadsBack →
        serialize t = serialize u → t = u := by
  have hreturn : ∀ u : Token, u.span.Fits →
      (deserialize? (serialize u) = some u ↔ u.kind.ReadsBack) := fun u hu => by
    rw [deserialize?_serialize, ofJson?_eq_some_iff hu]
  refine ⟨fun htag => ?_, fun x hx hfinite => ?_, fun x hx hfinite => ?_, ?_⟩
  · exact (hreturn t h).2 (TokenKind.readsBack_of_not_decimal htag)
  · rw [hreturn t h, hx, TokenKind.ReadsBack, and_iff_right hfinite]
  · rw [deserialize?_serialize, ofJson?_toJson h, hx, TokenKind.ofJson?_of_not_finite hfinite,
      Option.map_none]
  · intro u hu ht hku htext
    have hsame := (hreturn t h).2 ht
    rw [htext, (hreturn u hu).2 hku] at hsame
    exact (Option.some.inj hsame).symm

/-- A string with a quote, a backslash, control characters and one beyond the first plane, in a
token that ends at the last position there is; a decimal, what is no number, and two tokens that
differ only in their classes. -/
theorem tokens_return_sample :
    (∀ k : TokenKind, k = .string "\"\\\x01\n😀" ∨ k = .decimal ⟨0x3ff8000000000000⟩ →
        deserialize? (serialize ⟨k, "/\t", .start, .startingAt 0xffffffffffffffff⟩) =
          some ⟨k, "/\t", .start, .startingAt 0xffffffffffffffff⟩) ∧
      deserialize? (serialize ⟨.decimal ⟨0x7ff8000000000000⟩, "", .start, .start⟩) = none ∧
      serialize ⟨.string "1", "", .start, .start⟩ ≠
        serialize ⟨.symbol "1", "", .start, .start⟩ := by
  have hstart : Position.start.Fits := ⟨by decide, by decide, by decide⟩
  have hlast : (Position.startingAt 0xffffffffffffffff).Fits := ⟨by decide, by decide, by decide⟩
  refine ⟨?_, (tokens_return ⟨hstart, hstart⟩).2.2.1 _ rfl (by decide +kernel), fun htext => ?_⟩
  · rintro k (rfl | rfl)
    · exact (tokens_return ⟨hstart, hlast⟩).1 (by decide)
    · exact ((tokens_return ⟨hstart, hlast⟩).2.1 _ rfl (by decide +kernel)).2 (by decide +kernel)
  · have hsame : (⟨.string "1", "", .start, .start⟩ : Token) = ⟨.symbol "1", "", .start, .start⟩ :=
      (tokens_return ⟨hstart, hstart⟩).2.2.2 _ ⟨hstart, hstart⟩ trivial trivial htext
    cases hsame

/-- Not every finite decimal is read back: of three times the twenty-third power of ten, the reader
makes the number before it. -/
example : Binary64.isFinite ⟨0x44cfc3842bd1f072⟩ = true ∧
    (dataDecimal.write ⟨0x44cfc3842bd1f072⟩).binary? = some ⟨0x44cfc3842bd1f071⟩ := by
  decide +kernel

end Token

end DerivativeLexer
