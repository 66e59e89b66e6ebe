import DerivativeLexer.Stream.Feed

/-! # The text behind a feed

A feed hands its items out one by one, partly from memory and partly from the queue of its
source. Seen as a whole it holds one text, which reading does not change and pushing makes
longer. The operations of a feed are described here by that text, so that nothing else has to
look into the memory of a reader. -/

namespace DerivativeLexer

namespace Feed

variable {α : Type} {f g h : Feed α}

/-- Everything from the start of the reader on: what was drawn, and then what is queued. -/
def text (f : Feed α) : List α := f.reader.drawn.toList ++ f.source.queue

def textFrom (f : Feed α) (offset : Nat) : List α := f.text.drop (offset - f.reader.start)

/-- The offset is a place that the reader has passed or stands at. -/
def Reached (f : Feed α) (offset : Nat) : Prop :=
  f.reader.start ≤ offset ∧ offset ≤ f.reader.reach

/-- `g` is `f` after something was read. -/
structure ReadsTo (f g : Feed α) : Prop where
  text_eq : g.text = f.text
  start_eq : g.reader.start = f.reader.start
  closed_eq : g.source.closed = f.source.closed
  reach_le : f.reader.reach ≤ g.reader.reach

namespace ReadsTo

theorem refl (f : Feed α) : f.ReadsTo f := ⟨rfl, rfl, rfl, Nat.le_refl _⟩

theorem trans (hfg : f.ReadsTo g) (hgh : g.ReadsTo h) : f.ReadsTo h where
  text_eq := hgh.text_eq.trans hfg.text_eq
  start_eq := hgh.start_eq.trans hfg.start_eq
  closed_eq := hgh.closed_eq.trans hfg.closed_eq
  reach_le := Nat.le_trans hfg.reach_le hgh.reach_le

theorem textFrom_eq (hfg : f.ReadsTo g) (offset : Nat) : g.textFrom offset = f.textFrom offset := by
  rw [textFrom, textFrom, hfg.text_eq, hfg.start_eq]

end ReadsTo

theorem textFrom_add {offset : Nat} (ho : f.reader.start ≤ offset) (k : Nat) :
    f.textFrom (offset + k) = (f.textFrom offset).drop k := by
  rw [textFrom, textFrom, List.drop_drop]
  congr 1
  omega

/-! ### Reading -/

theorem drawnAt?_of_le {r : Reader α} {offset : Nat} (ho : r.start ≤ offset) :
    r.drawnAt? offset = r.drawn.toList[offset - r.start]? := by
  rw [Reader.drawnAt?, if_pos ho, Array.getElem?_toList]

theorem textFrom_eq_queue {offset : Nat} (ho : f.Reached offset)
    (h : f.reader.drawnAt? offset = none) :
    f.textFrom offset = f.source.queue ∧ offset = f.reader.reach := by
  rw [drawnAt?_of_le ho.1, List.getElem?_eq_none_iff, Array.length_toList] at h
  have hreach := ho.2
  unfold Reader.reach at hreach ⊢
  have hlo := ho.1
  have hsize : offset - f.reader.start = f.reader.drawn.toList.length := by
    rw [Array.length_toList]
    omega
  refine ⟨?_, by omega⟩
  rw [textFrom, text, hsize, List.drop_left]

theorem head?_of_textFrom_nil {offset : Nat} (ho : f.Reached offset)
    (h : f.textFrom offset = []) : f.head? offset = none := by
  rw [head?_eq_none_iff, plugged]
  cases hdrawn : f.reader.drawnAt? offset with
  | none =>
    have hqueue := (textFrom_eq_queue ho hdrawn).1.symm.trans h
    simp [Source.hasNext, hqueue]
  | some a =>
    rw [drawnAt?_of_le ho.1] at hdrawn
    obtain ⟨hlt, -⟩ := List.getElem?_eq_some_iff.1 hdrawn
    rw [textFrom, List.drop_eq_nil_iff, text, List.length_append] at h
    omega

theorem head?_of_textFrom_cons {offset : Nat} {a : α} {rest : List α} (ho : f.Reached offset)
    (h : f.textFrom offset = a :: rest) :
    ∃ g, f.head? offset = some (a, g) ∧ f.ReadsTo g ∧ offset + 1 ≤ g.reader.reach := by
  unfold head?
  cases hdrawn : f.reader.drawnAt? offset with
  | none =>
    obtain ⟨htext, hoffset⟩ := textFrom_eq_queue ho hdrawn
    have hqueue : f.source.queue = a :: rest := htext.symm.trans h
    simp only [Source.pull?, hqueue]
    refine ⟨_, rfl, ⟨?_, rfl, rfl, ?_⟩, ?_⟩
    · simp [text, Reader.remember, hqueue]
    · simp [Reader.reach, Reader.remember]
    · simp only [Reader.reach, Reader.remember, Array.size_push] at hoffset ⊢
      omega
  | some b =>
    rw [drawnAt?_of_le ho.1] at hdrawn
    obtain ⟨hlt, -⟩ := List.getElem?_eq_some_iff.1 hdrawn
    have hab : f.text[offset - f.reader.start]? = some b := by
      rw [text, List.getElem?_append_left hlt]
      exact hdrawn
    have hb : some a = some b := by
      rw [← hab, ← List.head?_drop, ← textFrom, h]
      rfl
    obtain rfl := Option.some.inj hb
    refine ⟨f, rfl, .refl f, ?_⟩
    rw [Array.length_toList] at hlt
    have hlo := ho.1
    unfold Reader.reach
    omega

theorem reached_of_head? {offset : Nat} {a : α} (ho : f.Reached offset)
    (h : f.head? offset = some (a, g)) : g.Reached (offset + 1) := by
  cases htext : f.textFrom offset with
  | nil =>
    rw [head?_of_textFrom_nil ho htext] at h
    cases h
  | cons b rest =>
    obtain ⟨g', hhead, hreads, hreach⟩ := head?_of_textFrom_cons ho htext
    obtain ⟨-, rfl⟩ := Prod.mk.inj (Option.some.inj (hhead.symm.trans h))
    refine ⟨?_, hreach⟩
    rw [hreads.start_eq]
    exact Nat.le_succ_of_le ho.1

/-- The item that a head has, whether it is remembered or drawn. -/
theorem head?_fst {offset : Nat} (ho : f.Reached offset) :
    (f.head? offset).map (·.1) = (f.textFrom offset).head? := by
  cases h : f.textFrom offset with
  | nil => rw [head?_of_textFrom_nil ho h, Option.map_none, List.head?_nil]
  | cons a rest =>
    obtain ⟨g, hg, -⟩ := head?_of_textFrom_cons ho h
    rw [hg, Option.map_some, List.head?_cons]

theorem plugged_eq {offset : Nat} (ho : f.Reached offset) :
    f.plugged offset = (f.textFrom offset).isEmpty := by
  rw [Bool.eq_iff_iff, ← head?_eq_none_iff, List.isEmpty_iff, ← List.head?_eq_none_iff,
    ← head?_fst ho, Option.map_eq_none_iff]

theorem ended_eq {offset : Nat} (ho : f.Reached offset) :
    f.ended offset = ((f.textFrom offset).isEmpty && f.source.closed) := by
  rw [ended, plugged_eq ho]

theorem take_eq {offset : Nat} (ho : f.Reached offset) (n : Nat) :
    ∃ g, f.take offset n = ((f.textFrom offset).take n, g) ∧ f.ReadsTo g := by
  induction n generalizing f offset with
  | zero => exact ⟨f, rfl, .refl f⟩
  | succ n ih =>
    cases h : f.textFrom offset with
    | nil =>
      refine ⟨f, ?_, .refl f⟩
      rw [take, head?_of_textFrom_nil ho h, List.take_nil]
    | cons a rest =>
      obtain ⟨g, hhead, hg, -⟩ := head?_of_textFrom_cons ho h
      have ho' : g.Reached (offset + 1) := reached_of_head? ho hhead
      have hrest : g.textFrom (offset + 1) = rest := by
        rw [hg.textFrom_eq, textFrom_add ho.1, h]
        rfl
      obtain ⟨k, htake, hk⟩ := ih ho'
      refine ⟨k, ?_, hg.trans hk⟩
      simp only [take, hhead, htake, hrest, List.take_succ_cons]

theorem available_eq {offset : Nat} (ho : f.Reached offset) :
    ∃ g, f.available offset = (f.textFrom offset, g) ∧ f.ReadsTo g := by
  obtain ⟨g, htake, hg⟩ := take_eq ho (f.reader.reach - offset + f.source.queue.length)
  refine ⟨g, ?_, hg⟩
  have hlength : (f.textFrom offset).length ≤
      f.reader.reach - offset + f.source.queue.length := by
    have hlo := ho.1
    rw [textFrom, text, List.length_drop, List.length_append, Array.length_toList, Reader.reach]
    omega
  rw [available, htake, List.take_of_length_le hlength]

theorem between_eq {first last : Nat} (hfirst : f.reader.start ≤ first)
    (hlast : last ≤ f.reader.reach) :
    f.reader.between first last = (f.textFrom first).take (last - first) := by
  have hlen : last - f.reader.start ≤ f.reader.drawn.toList.length := by
    unfold Reader.reach at hlast
    rw [Array.length_toList]
    omega
  rw [Reader.between, Array.toList_extract, textFrom, text]
  by_cases hle : first ≤ last
  · rw [List.extract_eq_take_drop, List.drop_append_of_le_length (by omega),
      List.take_append_of_le_length (by rw [List.length_drop]; omega)]
    congr 1
    omega
  · rw [List.extract_eq_take_drop]
    have hnil : last - first = 0 := by omega
    have hnil' : last - f.reader.start - (first - f.reader.start) = 0 := by omega
    rw [hnil, hnil', List.take_zero, List.take_zero]

end Feed

end DerivativeLexer
