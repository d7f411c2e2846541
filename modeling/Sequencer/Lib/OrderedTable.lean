/-
# Ordered tables

A table of bindings kept in strictly increasing key order, as a B-tree or an LMDB table keeps
them, with the two cursor moves a reader makes: `lowerBound` finds the first binding at or after
a key (the end of the table if there is none), and `prev` steps back one binding (from the end,
onto the last one).

A table is determined by what it binds (`ext_get`), so two tables that answer every `get` alike
are equal; a sequence of writes is then described by its effect on `get` alone.

For a table keyed by a pair ordered lexicographically, a main key and a version number,
stepping back from `(a, b)` finds the newest version of `a` below `b`.  `seekBefore_of_get`
says what that read returns in terms of `get` only: where version `i` holds what the `i`-th of a
list of diffs writes, the last write to `a` among the first `b` diffs.
-/
import Mathlib.Data.Prod.Lex

namespace Sequencer

/-- A table of bindings in strictly increasing key order. -/
@[ext]
structure OrderedTable (κ ν : Type) [LinearOrder κ] where
  entries : List (κ × ν)
  sorted : entries.Pairwise (fun a b => a.1 < b.1)

namespace OrderedTable

variable {κ ν : Type} [LinearOrder κ]

/-! ## Bindings -/

/-- The empty table. -/
def empty : OrderedTable κ ν := ⟨[], .nil⟩

/-- The value bound to `k`. -/
def get (t : OrderedTable κ ν) (k : κ) : Option ν :=
  (t.entries.find? (fun e => e.1 = k)).map Prod.snd

/-- The entries with `k` bound to `v` in key order, in place of any binding of `k`. -/
def insertEntry (k : κ) (v : ν) : List (κ × ν) → List (κ × ν)
  | [] => [(k, v)]
  | e :: es =>
    if k < e.1 then (k, v) :: e :: es
    else if k = e.1 then (k, v) :: es
    else e :: insertEntry k v es

theorem mem_insertEntry {k : κ} {v : ν} {es : List (κ × ν)} {e : κ × ν}
    (h : e ∈ insertEntry k v es) : e = (k, v) ∨ e ∈ es := by
  induction es with
  | nil => simpa [insertEntry] using h
  | cons e' es ih =>
    simp only [insertEntry] at h
    split_ifs at h
    · simpa using h
    · simp only [List.mem_cons] at h
      rcases h with h | h
      · exact .inl h
      · exact .inr (List.mem_cons_of_mem _ h)
    · simp only [List.mem_cons] at h
      rcases h with h | h
      · exact .inr (h ▸ List.mem_cons_self)
      · rcases ih h with h' | h'
        · exact .inl h'
        · exact .inr (List.mem_cons_of_mem _ h')

theorem sorted_insertEntry (k : κ) (v : ν) {es : List (κ × ν)}
    (hs : es.Pairwise (fun a b => a.1 < b.1)) :
    (insertEntry k v es).Pairwise (fun a b => a.1 < b.1) := by
  induction es with
  | nil => simp [insertEntry]
  | cons e es ih =>
    rw [List.pairwise_cons] at hs
    obtain ⟨hlt, hs⟩ := hs
    simp only [insertEntry]
    split_ifs with h₁ h₂
    · -- `k` goes in front of `e`, below every key after it
      refine List.Pairwise.cons (fun x hx => ?_) (List.Pairwise.cons hlt hs)
      rcases List.mem_cons.mp hx with rfl | hx
      · exact h₁
      · exact lt_trans h₁ (hlt x hx)
    · -- `k` replaces `e`
      exact List.Pairwise.cons (fun x hx => h₂ ▸ hlt x hx) hs
    · -- `k` goes after `e`
      have hek : e.1 < k := lt_of_le_of_ne (not_lt.mp h₁) (Ne.symm h₂)
      refine List.Pairwise.cons (fun x hx => ?_) (ih hs)
      rcases mem_insertEntry hx with rfl | hx
      · exact hek
      · exact hlt x hx

/-- A key above every key goes at the end. -/
theorem insertEntry_of_lt {k : κ} {v : ν} {es : List (κ × ν)} (h : ∀ e ∈ es, e.1 < k) :
    insertEntry k v es = es ++ [(k, v)] := by
  induction es with
  | nil => rfl
  | cons e es ih =>
    have hek : e.1 < k := h e List.mem_cons_self
    simp only [insertEntry, if_neg (not_lt.mpr (le_of_lt hek)), if_neg (ne_of_gt hek),
      ih fun x hx => h x (List.mem_cons_of_mem _ hx), List.cons_append]

/-- Binds `k` to `v`, in place of any earlier binding. -/
def set (t : OrderedTable κ ν) (k : κ) (v : ν) : OrderedTable κ ν :=
  ⟨insertEntry k v t.entries, sorted_insertEntry k v t.sorted⟩

/-- Removes the binding of `k`, if any. -/
def erase (t : OrderedTable κ ν) (k : κ) : OrderedTable κ ν :=
  ⟨t.entries.filter (fun e => e.1 ≠ k), t.sorted.filter _⟩

@[simp]
theorem get_empty (k : κ) : (empty : OrderedTable κ ν).get k = none := rfl

theorem find?_insertEntry (k k' : κ) (v : ν) (es : List (κ × ν)) :
    ((insertEntry k v es).find? (fun e => e.1 = k')).map Prod.snd =
      if k' = k then some v else (es.find? (fun e => e.1 = k')).map Prod.snd := by
  induction es with
  | nil => by_cases h : k' = k <;> simp [insertEntry, h, Ne.symm]
  | cons e es ih =>
    by_cases hk : k' = k
    · -- the new binding comes before every binding it does not replace
      subst hk
      simp only [insertEntry]
      split_ifs with h₁ h₂
      · simp
      · simp
      · have he : e.1 ≠ k' := fun h => h₂ h.symm
        simp [he, ih]
    · simp only [insertEntry]
      split_ifs with h₁ h₂
      · simp [Ne.symm hk]
      · -- the replaced binding was `k`'s, which `k'` is not
        have he : e.1 ≠ k' := h₂ ▸ Ne.symm hk
        simp [Ne.symm hk, he]
      · by_cases he : e.1 = k' <;> simp [he, ih, hk]

@[simp]
theorem get_set (t : OrderedTable κ ν) (k k' : κ) (v : ν) :
    (t.set k v).get k' = if k' = k then some v else t.get k' :=
  find?_insertEntry k k' v t.entries

theorem find?_filter_ne (k k' : κ) (es : List (κ × ν)) :
    ((es.filter (fun e => e.1 ≠ k)).find? (fun e => e.1 = k')).map Prod.snd =
      if k' = k then none else (es.find? (fun e => e.1 = k')).map Prod.snd := by
  induction es with
  | nil => simp
  | cons e es ih =>
    by_cases he : e.1 = k <;> by_cases he' : e.1 = k' <;> by_cases hk : k' = k <;>
      simp_all

@[simp]
theorem get_erase (t : OrderedTable κ ν) (k k' : κ) :
    (t.erase k).get k' = if k' = k then none else t.get k' :=
  find?_filter_ne k k' t.entries

/-- Erasing keys one by one keeps the other bindings, in order. -/
theorem entries_foldl_erase (ks : List κ) (t : OrderedTable κ ν) :
    (ks.foldl erase t).entries = t.entries.filter (fun e => e.1 ∉ ks) := by
  induction ks generalizing t with
  | nil => exact (List.filter_eq_self.mpr fun _ _ => rfl).symm
  | cons k ks ih =>
    rw [List.foldl_cons, ih, erase, List.filter_filter]
    congr 1
    funext e
    simp [Bool.and_comm]

/-- No binding of a sorted list lies below its keys. -/
theorem find?_eq_none_of_lt {k : κ} {es : List (κ × ν)} (h : ∀ x ∈ es, k < x.1) :
    es.find? (fun e => e.1 = k) = none := by
  rw [List.find?_eq_none]
  intro x hx
  simpa using ne_of_gt (h x hx)

theorem find?_eq_none_of_lt_head {k : κ} {e : κ × ν} {es : List (κ × ν)}
    (hs : (e :: es).Pairwise (fun a b => a.1 < b.1)) (hk : k < e.1) :
    (e :: es).find? (fun x => x.1 = k) = none := by
  refine find?_eq_none_of_lt fun x hx => ?_
  rcases List.mem_cons.mp hx with rfl | hx
  · exact hk
  · exact lt_trans hk ((List.pairwise_cons.mp hs).1 x hx)

/-- Sorted lists that bind every key alike are equal. -/
theorem eq_of_find? : ∀ {l₁ l₂ : List (κ × ν)},
    l₁.Pairwise (fun a b => a.1 < b.1) → l₂.Pairwise (fun a b => a.1 < b.1) →
    (∀ k, (l₁.find? (fun e => e.1 = k)).map Prod.snd = (l₂.find? (fun e => e.1 = k)).map Prod.snd) →
    l₁ = l₂
  | [], [], _, _, _ => rfl
  | [], e₂ :: _, _, _, h => by simpa using h e₂.1
  | e₁ :: _, [], _, _, h => by simpa using h e₁.1
  | e₁ :: l₁, e₂ :: l₂, s₁, s₂, h => by
    -- the heads bind the least key of each list, so they are the same binding
    have hkey : e₁.1 = e₂.1 := by
      rcases lt_trichotomy e₁.1 e₂.1 with hlt | heq | hgt
      · have := h e₁.1
        rw [List.find?_cons_of_pos (by simp), find?_eq_none_of_lt_head s₂ hlt] at this
        simp at this
      · exact heq
      · have := h e₂.1
        rw [find?_eq_none_of_lt_head s₁ hgt, List.find?_cons_of_pos (by simp)] at this
        simp at this
    have hval : e₁.2 = e₂.2 := by simpa [hkey] using h e₁.1
    have s₁' := List.pairwise_cons.mp s₁
    have s₂' := List.pairwise_cons.mp s₂
    have htail : l₁ = l₂ := by
      refine eq_of_find? s₁'.2 s₂'.2 fun k => ?_
      by_cases hk : e₁.1 = k
      · subst hk
        rw [find?_eq_none_of_lt s₁'.1, find?_eq_none_of_lt (hkey ▸ s₂'.1)]
      · have hk' : e₂.1 ≠ k := hkey ▸ hk
        simpa [hk, hk'] using h k
    rw [Prod.ext hkey hval, htail]

/-- **A table is what it binds.** -/
theorem ext_get {t₁ t₂ : OrderedTable κ ν} (h : ∀ k, t₁.get k = t₂.get k) : t₁ = t₂ :=
  OrderedTable.ext (eq_of_find? t₁.sorted t₂.sorted h)

/-- The bindings of `k`, as a list: one or none. -/
theorem filter_key_eq (t : OrderedTable κ ν) (k : κ) :
    t.entries.filter (fun e => e.1 = k) = (t.get k).toList.map (fun v => (k, v)) := by
  obtain ⟨es, hs⟩ := t
  simp only [get]
  induction es with
  | nil => simp
  | cons e es ih =>
    obtain ⟨k', v⟩ := e
    rw [List.pairwise_cons] at hs
    by_cases he : k' = k
    · -- `k` is bound here, and every later key is above it
      subst he
      have hrest : es.filter (fun e => e.1 = k') = [] := by
        rw [List.filter_eq_nil_iff]
        intro x hx
        simpa using ne_of_gt (hs.1 x hx)
      simp [hrest]
    · simp [he, ih hs.2]

/-- In a sorted list, the keys below a successor `y` of `x` are those below `x`, then `x`. -/
theorem filter_lt_of_succ {x y : κ} (hxy : ∀ z, z < y ↔ z ≤ x) :
    ∀ {es : List (κ × ν)}, es.Pairwise (fun a b => a.1 < b.1) →
      es.filter (fun e => e.1 < y) =
        es.filter (fun e => e.1 < x) ++ es.filter (fun e => e.1 = x)
  | [], _ => rfl
  | e :: es, hs => by
    have hs' := List.pairwise_cons.mp hs
    have ih := filter_lt_of_succ hxy hs'.2
    rcases lt_trichotomy e.1 x with hlt | heq | hgt
    · rw [List.filter_cons_of_pos (by simpa [hxy] using le_of_lt hlt),
        List.filter_cons_of_pos (by simpa using hlt),
        List.filter_cons_of_neg (by simpa using ne_of_lt hlt), ih]
      rfl
    · -- `x` is bound here, and every later key is above it
      have hgt' : ∀ z ∈ es, x < z.1 := fun z hz => heq ▸ hs'.1 z hz
      have h₁ : es.filter (fun e => e.1 < y) = [] :=
        List.filter_eq_nil_iff.mpr fun z hz => by simpa [hxy] using hgt' z hz
      have h₂ : es.filter (fun e => e.1 < x) = [] :=
        List.filter_eq_nil_iff.mpr fun z hz => by simpa using le_of_lt (hgt' z hz)
      have h₃ : es.filter (fun e => e.1 = x) = [] :=
        List.filter_eq_nil_iff.mpr fun z hz => by simpa using ne_of_gt (hgt' z hz)
      rw [List.filter_cons_of_pos (by simpa [hxy] using le_of_eq heq),
        List.filter_cons_of_neg (by simpa using le_of_eq heq.symm),
        List.filter_cons_of_pos (by simpa using heq), h₁, h₂, h₃]
      rfl
    · rw [List.filter_cons_of_neg (by simpa [hxy] using hgt),
        List.filter_cons_of_neg (by simpa using le_of_lt hgt),
        List.filter_cons_of_neg (by simpa using ne_of_gt hgt), ih]

/-! ## The cursor -/

/-- `lower_bound`: the position of the first binding at or after `k`, the end if none is. -/
def lowerBound (t : OrderedTable κ ν) (k : κ) : Nat :=
  (t.entries.takeWhile (fun e => e.1 < k)).length

/-- `prev`: the binding before a position; from the end of the table, the last binding. -/
def prev (t : OrderedTable κ ν) (pos : Nat) : Option (κ × ν) :=
  if pos = 0 then none else t.entries[pos - 1]?

/-- In a sorted list the bindings below `k` are an initial segment. -/
theorem takeWhile_eq_filter (t : OrderedTable κ ν) (k : κ) :
    t.entries.takeWhile (fun e => e.1 < k) = t.entries.filter (fun e => e.1 < k) := by
  obtain ⟨es, hs⟩ := t
  induction es with
  | nil => rfl
  | cons e es ih =>
    rw [List.pairwise_cons] at hs
    by_cases he : e.1 < k
    · simp [he, ih hs.2]
    · -- every later key is above `e`, so none is below `k`
      have hrest : es.filter (fun e => e.1 < k) = [] := by
        rw [List.filter_eq_nil_iff]
        intro x hx
        simpa using le_of_lt (lt_of_le_of_lt (not_lt.mp he) (hs.1 x hx))
      simp [he, hrest]

/-- The cursor at the lower bound of `k` sees the bindings from `k` on. -/
theorem drop_lowerBound (t : OrderedTable κ ν) (k : κ) :
    t.entries.drop (t.lowerBound k) = t.entries.dropWhile (fun e => e.1 < k) := by
  conv_lhs => rw [← List.takeWhile_append_dropWhile (p := fun e => decide (e.1 < k)) (l := t.entries)]
  exact List.drop_left

/-- In a sorted list, the bindings from the lower bound of `k` on are at `k` or above, and
sorted. -/
theorem le_of_mem_dropWhile (t : OrderedTable κ ν) (k : κ) :
    ∀ e ∈ t.entries.dropWhile (fun e => e.1 < k), k ≤ e.1 := by
  obtain ⟨es, hs⟩ := t
  induction es with
  | nil => simp
  | cons e es ih =>
    rw [List.pairwise_cons] at hs
    by_cases he : e.1 < k
    · simpa [List.dropWhile_cons, he] using ih hs.2
    · -- the first binding not below `k`, and every later one above it
      intro x hx
      simp only [List.dropWhile_cons, he, decide_false] at hx
      rcases List.mem_cons.mp hx with rfl | hx
      · exact not_lt.mp he
      · exact le_of_lt (lt_of_le_of_lt (not_lt.mp he) (hs.1 x hx))

/-- The bindings from the lower bound of `k` on are sorted. -/
theorem sorted_dropWhile (t : OrderedTable κ ν) (k : κ) :
    (t.entries.dropWhile (fun e => e.1 < k)).Pairwise (fun a b => a.1 < b.1) :=
  t.sorted.sublist (List.dropWhile_suffix _).sublist

/-- A bound key is where its lower bound lands. -/
theorem dropWhile_eq_of_get {t : OrderedTable κ ν} {k : κ} {v : ν} (h : t.get k = some v) :
    ∃ rest, t.entries.dropWhile (fun e => e.1 < k) = (k, v) :: rest := by
  obtain ⟨es, hs⟩ := t
  unfold get at h
  induction es with
  | nil => simp at h
  | cons e es ih =>
    rw [List.pairwise_cons] at hs
    by_cases he : e.1 < k
    · rw [List.find?_cons_of_neg (by simpa using ne_of_lt he)] at h
      simpa [List.dropWhile_cons, he] using ih hs.2 h
    · -- the first binding not below `k` binds `k`, or no later one could
      have hek : e.1 = k := by
        by_contra hne
        have hlt : k < e.1 := lt_of_le_of_ne (not_lt.mp he) (Ne.symm hne)
        simp [find?_eq_none_of_lt_head (List.pairwise_cons.mpr hs) hlt] at h
      rw [List.find?_cons_of_pos (by simpa using hek)] at h
      obtain ⟨k', v'⟩ := e
      simp only at hek h he
      subst hek
      simp only [Option.map_some, Option.some.injEq] at h
      subst h
      exact ⟨es, by simp⟩

/-- An unbound key is not the key of any binding. -/
theorem ne_of_get_eq_none {t : OrderedTable κ ν} {k : κ} (h : t.get k = none) :
    ∀ e ∈ t.entries, e.1 ≠ k := by
  intro e he hek
  have hfind : t.entries.find? (fun e => e.1 = k) = none := by simpa [get] using h
  simpa [hek] using List.find?_eq_none.mp hfind e he

theorem getElem?_of_lt_takeWhile {α : Type} {p : α → Bool} {l : List α} {i : Nat}
    (h : i < (l.takeWhile p).length) : l[i]? = (l.takeWhile p)[i]? := by
  conv_lhs => rw [← List.takeWhile_append_dropWhile (p := p) (l := l)]
  exact List.getElem?_append_left h

/-- **Stepping back from the lower bound of `k` finds the last binding below `k`.** -/
theorem prev_lowerBound (t : OrderedTable κ ν) (k : κ) :
    t.prev (t.lowerBound k) = (t.entries.filter (fun e => e.1 < k)).getLast? := by
  rw [← takeWhile_eq_filter, List.getLast?_eq_getElem?]
  unfold prev lowerBound
  split_ifs with h0
  · simp [List.length_eq_zero_iff.mp h0]
  · exact getElem?_of_lt_takeWhile (by omega)

/-! ## Versioned bindings

Keys `(a, b)` in lexicographic order, `b` a version number: all versions of `a` are together,
oldest first. -/

section Versions

variable {α : Type} [LinearOrder α]

/-- The value of the newest version of `a` below `b`: the binding before the lower bound of
`(a, b)`, if it belongs to `a`. -/
def seekBefore (t : OrderedTable (α ×ₗ Nat) ν) (a : α) (b : Nat) : Option ν :=
  match t.prev (t.lowerBound (toLex (a, b))) with
  | some (k, v) => if (ofLex k).1 = a then some v else none
  | none => none

theorem lt_toLex_zero {x : α ×ₗ Nat} {a : α} (h : x < toLex (a, 0)) : (ofLex x).1 < a := by
  rw [Prod.Lex.lt_iff, ofLex_toLex] at h
  rcases h with h | ⟨-, h⟩
  · exact h
  · exact absurd h (Nat.not_lt_zero _)

/-- `(a, b + 1)` is the successor of `(a, b)`. -/
theorem lt_toLex_succ {x : α ×ₗ Nat} {a : α} {b : Nat} :
    x < toLex (a, b + 1) ↔ x ≤ toLex (a, b) := by
  rw [Prod.Lex.lt_iff, Prod.Lex.le_iff, ofLex_toLex, ofLex_toLex]
  constructor
  · rintro (h | ⟨h₁, h₂⟩)
    · exact .inl h
    · exact .inr ⟨h₁, Nat.lt_succ_iff.mp h₂⟩
  · rintro (h | ⟨h₁, h₂⟩)
    · exact .inl h
    · exact .inr ⟨h₁, Nat.lt_succ_iff.mpr h₂⟩

/-- The bindings below `(a, b + 1)` are those below `(a, b)`, then that of `(a, b)`. -/
theorem filter_lt_succ (t : OrderedTable (α ×ₗ Nat) ν) (a : α) (b : Nat) :
    t.entries.filter (fun e => e.1 < toLex (a, b + 1)) =
      t.entries.filter (fun e => e.1 < toLex (a, b)) ++
        t.entries.filter (fun e => e.1 = toLex (a, b)) :=
  filter_lt_of_succ (fun _ => lt_toLex_succ) t.sorted

theorem seekBefore_zero (t : OrderedTable (α ×ₗ Nat) ν) (a : α) : t.seekBefore a 0 = none := by
  unfold seekBefore
  rw [prev_lowerBound]
  cases hl : (t.entries.filter (fun e => e.1 < toLex (a, 0))).getLast? with
  | none => rfl
  | some e =>
    -- everything below `(a, 0)` belongs to a smaller main key
    have hmem := List.mem_of_getLast? hl
    have hlt : (ofLex e.1).1 < a := lt_toLex_zero (by simpa using (List.mem_filter.mp hmem).2)
    simp [ne_of_lt hlt]

theorem seekBefore_succ (t : OrderedTable (α ×ₗ Nat) ν) (a : α) (b : Nat) :
    t.seekBefore a (b + 1) = (t.get (toLex (a, b))).or (t.seekBefore a b) := by
  unfold seekBefore
  rw [prev_lowerBound, prev_lowerBound, filter_lt_succ, filter_key_eq, List.getLast?_append]
  cases t.get (toLex (a, b)) with
  | none => rfl
  | some v => simp

/-- **A fold of writes at one version** leaves the other versions alone, and gives each
binding at that version what the fold of its updates gives it. -/
theorem get_foldl_version {β ω : Type} (g : ω → β → ω) (view : ω → OrderedTable (α ×ₗ Nat) ν)
    (blk : Nat) (upd : α → β → Option ν → Option ν)
    (hg : ∀ t e a b, (view (g t e)).get (toLex (a, b)) =
      if b = blk then upd a e ((view t).get (toLex (a, b))) else (view t).get (toLex (a, b)))
    (l : List β) (t : ω) (a : α) (b : Nat) :
    (view (l.foldl g t)).get (toLex (a, b)) =
      if b = blk then l.foldl (fun acc e => upd a e acc) ((view t).get (toLex (a, b)))
      else (view t).get (toLex (a, b)) := by
  induction l generalizing t with
  | nil => split_ifs <;> rfl
  | cons e l ih =>
    rw [List.foldl_cons, ih, hg]
    by_cases hb : b = blk <;> simp [hb]

theorem get_set_version (t : OrderedTable (α ×ₗ Nat) ν) (a a' : α) (b blk : Nat) (v : ν) :
    (t.set (toLex (a', blk)) v).get (toLex (a, b)) =
      if b = blk then (if a = a' then some v else t.get (toLex (a, b)))
      else t.get (toLex (a, b)) := by
  by_cases hb : b = blk <;> by_cases ha : a = a' <;> simp [hb, ha]

theorem get_erase_version (t : OrderedTable (α ×ₗ Nat) ν) (a a' : α) (b blk : Nat) :
    (t.erase (toLex (a', blk))).get (toLex (a, b)) =
      if b = blk then (if a = a' then none else t.get (toLex (a, b)))
      else t.get (toLex (a, b)) := by
  by_cases hb : b = blk <;> by_cases ha : a = a' <;> simp [hb, ha]

/-- Two versioned tables that agree on every version of every key are equal. -/
theorem ext_get_version {t₁ t₂ : OrderedTable (α ×ₗ Nat) ν}
    (h : ∀ a b, t₁.get (toLex (a, b)) = t₂.get (toLex (a, b))) : t₁ = t₂ :=
  ext_get fun k => h (ofLex k).1 (ofLex k).2

/-- Writing a list of bindings at one version: each key gets the last value written to it. -/
theorem get_foldl_set_version {β : Type} (l : List β) (key : β → α) (val : β → ν)
    (t : OrderedTable (α ×ₗ Nat) ν) (blk : Nat) (a : α) (b : Nat) :
    (l.foldl (fun t e => t.set (toLex (key e, blk)) (val e)) t).get (toLex (a, b)) =
      if b = blk then
        l.foldl (fun acc e => (if a = key e then some (val e) else none).or acc) (t.get (toLex (a, b)))
      else t.get (toLex (a, b)) :=
  get_foldl_version _ (fun t => t) blk (fun a e acc => (if a = key e then some (val e) else none).or acc)
    (fun t e a b => by rw [get_set_version]; split_ifs <;> rfl) l t a b

/-- Clearing an option once for every element that satisfies `p`. -/
theorem foldl_ite_none {β γ : Type} (p : β → Prop) [DecidablePred p] (l : List β)
    (init : Option γ) :
    l.foldl (fun acc e => if p e then none else acc) init = if ∃ e ∈ l, p e then none else init := by
  induction l generalizing init with
  | nil => simp
  | cons e l ih =>
    rw [List.foldl_cons, ih]
    by_cases he : p e <;> simp [he]

/-- Erasing a list of keys at one version. -/
theorem get_foldl_erase_version {β : Type} (l : List β) (key : β → α) (t : OrderedTable (α ×ₗ Nat) ν)
    (blk : Nat) (a : α) (b : Nat) :
    (l.foldl (fun t e => t.erase (toLex (key e, blk))) t).get (toLex (a, b)) =
      if b = blk then (if ∃ e ∈ l, a = key e then none else t.get (toLex (a, b)))
      else t.get (toLex (a, b)) := by
  rw [get_foldl_version _ (fun t => t) blk (fun a e acc => if a = key e then none else acc)
    (fun t e a b => get_erase_version t a (key e) b blk) l t a b, foldl_ite_none]

/-- **A versioned table that holds a list of diffs**, the binding at version `i` being what the
`i`-th diff writes, answers a read before version `b` with the last write among the first `b`
diffs. -/
theorem seekBefore_of_get {β : Type} {t : OrderedTable (α ×ₗ Nat) ν} {a : α} {ds : List β}
    {f : β → Option ν} (h : ∀ i, t.get (toLex (a, i)) = ds[i]?.bind f) (b : Nat) :
    t.seekBefore a b = (ds.take b).foldl (fun acc d => (f d).or acc) none := by
  induction b with
  | zero => rw [seekBefore_zero]; rfl
  | succ b ih =>
    rw [seekBefore_succ, ih, h, List.take_add_one, List.foldl_append]
    cases ds[b]? <;> rfl

end Versions

end OrderedTable

end Sequencer
