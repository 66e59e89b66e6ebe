import DerivativeLexer.Language.UnionCache
import DerivativeLexer.Proofs.Language.Expression

/-! # Unions looked up

A union that is remembered is the union that would be built now, whatever was looked up, dropped
or made room for since it was stored. So a computation that looks its unions up yields what it
would yield if it built each of them. Others that use the same memory may disturb it before any
look-up, and also in the middle of one, while the union that was not found is being built. -/

namespace DerivativeLexer

/-! ### What is remembered -/

namespace UnionCache

/-- Every entry is the union of its key, and there are no more entries than fit. -/
structure Sound (c : UnionCache) : Prop where
  union_eq : ∀ entry ∈ c.entries, entry.2 = entry.1.1.or entry.1.2
  size_le : c.size ≤ c.capacity

/-- The first half of a look-up: the answer, if there is one. -/
def look (c : UnionCache) (key : UnionKey) : Option Language × UnionCache :=
  match c.find? key with
  | some value => (some value, c.refresh key value)
  | none => (none, { c with misses := c.misses + 1 })

/-- The second half of a look-up that was not answered. Somebody else may have stored the same
union since; there is one entry for it then as before. -/
def keep (c : UnionCache) (key : UnionKey) (value : Language) : UnionCache :=
  { c with entries := ((key, value) :: c.without key).take c.capacity }

/-- What can be done with the memory. -/
inductive Use where
  | lookUp (a b : Language)
  | look (a b : Language)
  | keep (a b : Language)
  | clear
  | resize (n : Nat) (h : 0 < n)

def use (c : UnionCache) : Use → UnionCache
  | .lookUp a b => ((a.orCached b).run c).2
  | .look a b => (c.look (a, b)).2
  | .keep a b => c.keep (a, b) (a.or b)
  | .clear => c.clear
  | .resize n h => c.resize n h

def useAll (c : UnionCache) (uses : List Use) : UnionCache := uses.foldl use c

variable {c : UnionCache} {key : UnionKey} {value : Language}

theorem sound_fresh : fresh.Sound where
  union_eq := fun _ h => nomatch h
  size_le := Nat.zero_le _

theorem mem_of_find? (h : c.find? key = some value) : (key, value) ∈ c.entries := by
  obtain ⟨entry, hentry, rfl⟩ := Option.map_eq_some_iff.1 h
  have hkey : entry.1 = key := by simpa using List.find?_some hentry
  rw [← hkey]
  exact List.mem_of_find?_eq_some hentry

namespace Sound

theorem find?_eq (h : c.Sound) {a b : Language} (hfind : c.find? (a, b) = some value) :
    value = a.or b :=
  h.union_eq _ (mem_of_find? hfind)

theorem refresh (h : c.Sound) (hfind : c.find? key = some value) :
    (c.refresh key value).Sound where
  union_eq := by
    intro entry hentry
    rcases List.mem_cons.1 hentry with rfl | hentry
    · exact h.union_eq _ (mem_of_find? hfind)
    · exact h.union_eq entry (List.mem_of_mem_filter hentry)
  size_le := by
    have hlt : (c.without key).length < c.entries.length := by
      apply List.length_filter_lt_length_iff_exists.2
      exact ⟨(key, value), mem_of_find? hfind, by simp⟩
    exact Nat.le_trans hlt h.size_le

theorem keep (h : c.Sound) {a b : Language} : (c.keep (a, b) (a.or b)).Sound where
  union_eq := by
    intro entry hentry
    rcases List.mem_cons.1 (List.mem_of_mem_take hentry) with rfl | hentry
    · rfl
    · exact h.union_eq entry (List.mem_of_mem_filter hentry)
  size_le := List.length_take_le _ _

theorem look (h : c.Sound) (a b : Language) :
    (∀ value ∈ (c.look (a, b)).1, value = a.or b) ∧ (c.look (a, b)).2.Sound := by
  unfold UnionCache.look
  cases hfind : c.find? (a, b) with
  | some value =>
    refine ⟨?_, h.refresh hfind⟩
    rintro _ ⟨⟩
    exact h.find?_eq hfind
  | none => exact ⟨nofun, ⟨h.union_eq, h.size_le⟩⟩

theorem clear : c.clear.Sound where
  union_eq := fun _ h => nomatch h
  size_le := Nat.zero_le _

theorem resize (h : c.Sound) {n : Nat} (hn : 0 < n) : (c.resize n hn).Sound where
  union_eq := fun entry hentry => h.union_eq entry (List.mem_of_mem_take hentry)
  size_le := List.length_take_le _ _

end Sound

end UnionCache

/-! ### What a computation yields -/

section Yields

variable {σ α β : Type} {I : σ → Prop}

/-- Started where `I` holds, the computation yields `a`, and `I` holds afterwards. -/
def Yields (I : σ → Prop) (p : StateM σ α) (a : α) : Prop :=
  ∀ s, I s → (p.run s).1 = a ∧ I (p.run s).2

namespace Yields

variable {p : StateM σ α} {f : α → StateM σ β} {a : α} {b : β}

theorem pure (a : α) : Yields I (pure a) a := fun _ hs => ⟨rfl, hs⟩

theorem bind (hp : Yields I p a) (hf : Yields I (f a) b) : Yields I (p >>= f) b := by
  intro s hs
  obtain ⟨hvalue, hstate⟩ := hp s hs
  have hrun : (p >>= f).run s = (f (p.run s).1).run (p.run s).2 := rfl
  rw [hrun, hvalue]
  exact hf _ hstate

theorem ite {c : Prop} [Decidable c] {q : StateM σ α} {a' : α} (hp : c → Yields I p a)
    (hq : ¬c → Yields I q a') : Yields I (if c then p else q) (if c then a else a') := by
  split
  · exact hp ‹_›
  · exact hq ‹_›

theorem mapM {xs : List α} {g : α → StateM σ β} {h : α → β} (hg : ∀ x ∈ xs, Yields I (g x) (h x)) :
    Yields I (xs.mapM g) (xs.map h) := by
  induction xs with
  | nil => exact .pure []
  | cons x rest ih =>
    rw [List.mapM_cons]
    have hrest := ih fun y hy => hg y (List.mem_cons_of_mem x hy)
    exact (hg x List.mem_cons_self).bind (hrest.bind (.pure _))

theorem foldlM {xs : List β} {g : α → β → StateM σ α} {h : α → β → α}
    (hg : ∀ a x, Yields I (g a x) (h a x)) (a : α) :
    Yields I (xs.foldlM g a) (xs.foldl h a) := by
  induction xs generalizing a with
  | nil => exact .pure a
  | cons x rest ih => exact (hg a x).bind (ih (h a x))

end Yields

end Yields

/-! ### Look-ups -/

theorem UnionCache.without_of_find?_eq_none {c : UnionCache} {key : UnionKey}
    (h : c.find? key = none) : c.without key = c.entries := by
  have hfree : ∀ entry ∈ c.entries, entry.1 ≠ key := by simpa [find?] using h
  exact List.filter_eq_self.2 fun entry hentry => by simpa using hfree entry hentry

/-- A look-up whose union is built between its two halves, where `others` is what happens
meanwhile. -/
def Language.orAmid (a b : Language) (others : List UnionCache.Use) : Cached Language := fun c =>
  match c.look (a, b) with
  | (some value, c) => (value, c)
  | (none, c) => (a.or b, (c.useAll others).keep (a, b) (a.or b))

/-- With nobody in between, the two halves are the look-up. -/
theorem Language.orCached_eq_orAmid (a b : Language) : a.orCached b = a.orAmid b [] := by
  funext c
  unfold orCached orAmid UnionCache.look
  cases hfind : c.find? (a, b) with
  | some value => rfl
  | none =>
    have hwithout : ({ c with misses := c.misses + 1 } : UnionCache).without (a, b) = c.entries :=
      UnionCache.without_of_find?_eq_none hfind
    simp only [UnionCache.keep, UnionCache.store, UnionCache.useAll, List.foldl_nil, hwithout]

theorem UnionCache.Sound.use {c : UnionCache} (h : c.Sound) (u : Use) : (c.use u).Sound := by
  cases u with
  | lookUp a b =>
    have hlook := h.look a b
    have huse : (c.use (.lookUp a b)) = (a.orAmid b [] c).2 := by
      rw [← Language.orCached_eq_orAmid]
      rfl
    rw [huse]
    unfold Language.orAmid
    split
    next heq => exact (heq ▸ hlook).2
    next heq => exact (heq ▸ hlook).2.keep
  | look a b => exact (h.look a b).2
  | keep a b => exact h.keep
  | clear => exact .clear
  | resize n hn => exact h.resize hn

theorem UnionCache.Sound.useAll {c : UnionCache} (h : c.Sound) (uses : List Use) :
    (c.useAll uses).Sound := by
  induction uses generalizing c with
  | nil => exact h
  | cons u rest ih => exact ih (h.use u)

theorem Language.yields_orAmid (a b : Language) (others : List UnionCache.Use) :
    Yields UnionCache.Sound (a.orAmid b others) (a.or b) := by
  intro c hc
  have hrun : (a.orAmid b others).run c = a.orAmid b others c := rfl
  have hlook := hc.look a b
  rw [hrun]
  unfold orAmid
  split
  next value after heq =>
    rw [heq] at hlook
    exact ⟨hlook.1 value rfl, hlook.2⟩
  next after heq =>
    rw [heq] at hlook
    exact ⟨rfl, (hlook.2.useAll others).keep⟩

theorem Language.yields_orCached (a b : Language) :
    Yields UnionCache.Sound (a.orCached b) (a.or b) :=
  a.orCached_eq_orAmid b ▸ a.yields_orAmid b []

/-! ### Disturbed look-ups -/

/-- What others do with the memory around one look-up: before it, and in the middle of it if it
is not answered. -/
structure Disturbance where
  before : List UnionCache.Use
  amid : List UnionCache.Use

/-- A memory that others use as well: what they do around the next look-up, around the one after
it, and so on. -/
structure SharedCache where
  cache : UnionCache
  others : Nat → Disturbance

def SharedCache.Sound (s : SharedCache) : Prop := s.cache.Sound

def Language.orShared (a b : Language) : StateM SharedCache Language := fun s =>
  let (value, cache) := (a.orAmid b (s.others 0).amid).run (s.cache.useAll (s.others 0).before)
  (value, ⟨cache, fun i => s.others (i + 1)⟩)

theorem Language.yields_orShared (a b : Language) :
    Yields SharedCache.Sound (a.orShared b) (a.or b) := fun s hs =>
  a.yields_orAmid b _ _ (UnionCache.Sound.useAll hs (s.others 0).before)

/-! ### Derivatives -/

section Via

variable {σ : Type} (union : Language → Language → StateM σ Language)

namespace Language

def optionalVia (a : Language) : StateM σ Language :=
  if a.onlyEmpty || a.acceptsEmpty then pure a
  else if a.rejectsAll then pure emptyString
  else union emptyString a

def derivePowerVia (a : Language) (d : StateM σ Language) : Nat → StateM σ Language
  | 0 => pure emptyLanguage
  | 1 => d
  | n + 2 =>
    if a.onlyEmpty || a.rejectsAll then pure emptyLanguage
    else do
      let first ← d
      let head := first.followedBy (a.replicate (n + 1))
      if a.acceptsEmpty then
        let later ← derivePowerVia a d (n + 1)
        union head later
      else pure head

/-- The derivative by a symbol, with every union that it needs had from `union`. -/
def deriveVia (x : Symbol) : Language → StateM σ Language
  | concat a b => do
    let head := (← a.deriveVia x).followedBy b
    if a.acceptsEmpty then
      let later ← b.deriveVia x
      union head later
    else pure head
  | Language.union a b => do
    let left ← a.deriveVia x
    let right ← b.deriveVia x
    union left right
  | star a => do
    let head ← a.deriveVia x
    pure (head.followedBy (star a))
  | power a n => derivePowerVia union a (a.deriveVia x) n
  | leaf => pure (leaf.derive x)

def deriveWordVia (a : Language) (word : List Symbol) : StateM σ Language :=
  word.foldlM (fun l x => deriveVia union x l) a

theorem optionalCached_eq (a : Language) : a.optionalCached = a.optionalVia orCached := rfl

theorem derivePowerCached_eq (a : Language) (d : Cached Language) (n : Nat) :
    a.derivePowerCached d n = a.derivePowerVia orCached d n := by
  induction n using Nat.twoStepInduction with
  | zero => rfl
  | one => rfl
  | more n _ ih => rw [derivePowerCached, derivePowerVia, ih]

theorem deriveCached_eq (x : Symbol) (a : Language) :
    a.deriveCached x = a.deriveVia orCached x := by
  induction a with
  | concat a b iha ihb => rw [deriveCached, deriveVia, iha, ihb]
  | union a b iha ihb => rw [deriveCached, deriveVia, iha, ihb]
  | star a ih => rw [deriveCached, deriveVia, ih]
  | power a n ih => rw [deriveCached, deriveVia, ih, derivePowerCached_eq]
  | literal c => rfl
  | charSet s => rfl
  | negatedCharSet s => rfl
  | anyChar => rfl
  | endOfInput => rfl
  | emptyLanguage => rfl
  | emptyString => rfl

theorem deriveWordCached_eq (a : Language) (word : List Symbol) :
    a.deriveWordCached word = a.deriveWordVia orCached word := by
  unfold deriveWordCached deriveWordVia
  simp only [deriveCached_eq]

section

variable {union} {I : σ → Prop} (hunion : ∀ a b, Yields I (union a b) (a.or b))

include hunion

theorem yields_optionalVia (a : Language) : Yields I (a.optionalVia union) a.optional :=
  .ite (fun _ => .pure a) fun _ => .ite (fun _ => .pure _) fun _ => hunion _ a

theorem yields_derivePowerVia (a : Language) {d : StateM σ Language} {d' : Language}
    (hd : Yields I d d') (n : Nat) :
    Yields I (a.derivePowerVia union d n) (a.derivePower d' n) := by
  induction n using Nat.twoStepInduction with
  | zero => exact .pure _
  | one => exact hd
  | more n _ ih =>
    rw [derivePowerVia, derivePower]
    refine .ite (fun _ => .pure _) fun _ => hd.bind ?_
    exact .ite (fun _ => ih.bind (hunion _ _)) fun _ => .pure _

theorem yields_deriveVia (x : Symbol) (a : Language) :
    Yields I (a.deriveVia union x) (a.derive x) := by
  induction a with
  | concat a b iha ihb =>
    exact iha.bind (.ite (fun _ => ihb.bind (hunion _ _)) fun _ => .pure _)
  | union a b iha ihb => exact iha.bind (ihb.bind (hunion _ _))
  | star a ih => exact ih.bind (.pure _)
  | power a n ih => exact yields_derivePowerVia hunion a ih n
  | literal c => exact .pure _
  | charSet s => exact .pure _
  | negatedCharSet s => exact .pure _
  | anyChar => exact .pure _
  | endOfInput => exact .pure _
  | emptyLanguage => exact .pure _
  | emptyString => exact .pure _

theorem yields_deriveWordVia (a : Language) (word : List Symbol) :
    Yields I (a.deriveWordVia union word) (a.deriveWord word) :=
  .foldlM (fun l x => yields_deriveVia hunion x l) a

end

end Language

/-! ### Patterns -/

namespace Expression

/-- The tree that the constructors build, with every union had from `union`. -/
def buildVia : Expression → StateM σ Language
  | followedBy a b => do pure ((← a.buildVia).followedBy (← b.buildVia))
  | or a b => do union (← a.buildVia) (← b.buildVia)
  | zeroOrMore a => do pure (← a.buildVia).zeroOrMore
  | oneOrMore a => do pure (← a.buildVia).oneOrMore
  | optional a => do (← a.buildVia).optionalVia union
  | replicate a n => do pure ((← a.buildVia).replicate n)
  | derive x a => do (← a.buildVia).deriveVia union x
  | leaf => pure leaf.build

theorem yields_buildVia {union : Language → Language → StateM σ Language} {I : σ → Prop}
    (hunion : ∀ a b, Yields I (union a b) (a.or b)) (e : Expression) :
    Yields I (e.buildVia union) e.build := by
  induction e with
  | followedBy a b iha ihb => exact iha.bind (ihb.bind (.pure _))
  | or a b iha ihb => exact iha.bind (ihb.bind (hunion _ _))
  | zeroOrMore a ih => exact ih.bind (.pure _)
  | oneOrMore a ih => exact ih.bind (.pure _)
  | optional a ih => exact ih.bind (Language.yields_optionalVia hunion _)
  | replicate a n ih => exact ih.bind (.pure _)
  | derive x a ih => exact ih.bind (Language.yields_deriveVia hunion x _)
  | literal c => exact .pure _
  | lit s => exact .pure _
  | charSet cs => exact .pure _
  | negatedCharSet cs => exact .pure _
  | range lo hi => exact .pure _
  | anyChar => exact .pure _
  | endOfInput => exact .pure _
  | emptyLanguage => exact .pure _
  | emptyString => exact .pure _

end Expression

end Via

end DerivativeLexer
