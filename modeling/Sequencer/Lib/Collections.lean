/-
# Rust's standard collections, as lists

The model keeps what a collection holds and the order the program can observe, and drops its
layout (buckets, nodes, capacity).

* `HashMap κ ν` is an association list, at most one entry per key.  Rust's `HashMap` has no
  iteration order; the list's order is one of those it may show, so a statement that holds for
  every order has to hold for every list.
* `BTreeMap κ ν` is the same list.  Its iteration order is by key, so it is read through
  `BTreeMap.values`, which sorts.
* `BTreeSet α` under a comparator `cmp` is a list in ascending order under `cmp`, with no two
  elements equal under it.  Rust compares the elements of a set only through `Ord::cmp`, and so
  does every operation here; an element that `cmp` calls equal to one already present is not
  inserted.
* `IndexMap κ ν` is its entries in insertion order, each key once; a key inserted again keeps
  its place.

`insert` and `remove` return what Rust returns (the displaced value, or whether the set
changed) beside the new collection.  Nothing here names the program it is used for.
-/
import Mathlib.Data.List.Sort
import Mathlib.Algebra.GroupWithZero.Nat

namespace Sequencer

variable {κ ν α : Type}

/-! ## 1. `HashMap` -/

/-- A `HashMap`: its live entries. -/
abbrev HashMap (κ ν : Type) := List (κ × ν)

namespace HashMap

variable [DecidableEq κ]

/-- `HashMap::get`. -/
def get (m : HashMap κ ν) (k : κ) : Option ν := m.lookup k

/-- `HashMap::contains_key`. -/
def containsKey (m : HashMap κ ν) (k : κ) : Bool := (m.get k).isSome

/-- `HashMap::insert`: the value it displaces, and the map with `k` now bound to `v`. -/
def insert (m : HashMap κ ν) (k : κ) (v : ν) : Option ν × HashMap κ ν :=
  (m.get k, (k, v) :: m.filter fun e => e.1 != k)

/-- `HashMap::remove`: the value it removes, and the map without `k`. -/
def remove (m : HashMap κ ν) (k : κ) : Option ν × HashMap κ ν :=
  (m.get k, m.filter fun e => e.1 != k)

/-- `HashMap::keys`. -/
def keys (m : HashMap κ ν) : List κ := m.map Prod.fst

theorem get_filter_ne (m : HashMap κ ν) {k k' : κ} (h : k' ≠ k) :
    get (m.filter fun e => e.1 != k) k' = get m k' := by
  unfold get
  induction m with
  | nil => rfl
  | cons e m ih =>
    obtain ⟨k₁, v₁⟩ := e
    by_cases h₁ : k₁ = k
    · -- the entry under `k` is dropped, and `k'` is not `k`
      subst h₁
      rw [List.filter_cons_of_neg (by simp), ih, List.lookup_cons, beq_false_of_ne h]
    · rw [List.filter_cons_of_pos (by simpa using h₁), List.lookup_cons, List.lookup_cons, ih]

@[simp] theorem get_insert (m : HashMap κ ν) (k k' : κ) (v : ν) :
    get (m.insert k v).2 k' = if k' = k then some v else get m k' := by
  by_cases h : k' = k
  · subst h
    simp [insert, get]
  · rw [if_neg h, insert, get, List.lookup_cons, beq_false_of_ne h]
    exact get_filter_ne m h

/-- An insert keeps one entry per key. -/
theorem nodup_insert {m : HashMap κ ν} (hm : (m.map Prod.fst).Nodup) (k : κ) (v : ν) :
    ((m.insert k v).2.map Prod.fst).Nodup := by
  rw [insert, List.map_cons, List.nodup_cons]
  refine ⟨fun hk => ?_, hm.sublist (List.filter_sublist.map _)⟩
  obtain ⟨e, he, hek⟩ := List.mem_map.mp hk
  simpa [hek] using (List.mem_filter.mp he).2

@[simp] theorem get_remove (m : HashMap κ ν) (k k' : κ) :
    get (m.remove k).2 k' = if k' = k then none else get m k' := by
  by_cases h : k' = k
  · subst h
    rw [if_pos rfl, remove, get, List.lookup_eq_none_iff]
    intro e he
    have hne : e.1 ≠ k' := by simpa using (List.mem_filter.mp he).2
    simpa using hne.symm
  · rw [if_neg h, remove]
    exact get_filter_ne m h

/-- Removing a present key shortens the list of entries. -/
theorem length_remove_lt {m : HashMap κ ν} {k : κ} {v : ν} (h : get m k = some v) :
    (m.remove k).2.length < m.length := by
  obtain ⟨l₁, l₂, he, -⟩ := List.lookup_eq_some_iff.mp h
  subst he
  simp only [remove, List.filter_append, List.filter_cons, bne_self_eq_false, List.length_append,
    List.length_cons]
  have h₁ := List.length_filter_le (fun e : κ × ν => e.1 != k) l₁
  have h₂ := List.length_filter_le (fun e : κ × ν => e.1 != k) l₂
  simp
  omega

/-- `HashMap::get_mut` and an update of the value in place: the entries keep their places. -/
def modify (m : HashMap κ ν) (k : κ) (f : ν → ν) : HashMap κ ν :=
  m.map fun e => if e.1 = k then (e.1, f e.2) else e

@[simp] theorem get_modify (m : HashMap κ ν) (k k' : κ) (f : ν → ν) :
    get (m.modify k f) k' = if k' = k then (get m k').map f else get m k' := by
  unfold get modify
  induction m with
  | nil => split <;> rfl
  | cons e m ih =>
    obtain ⟨k₁, v₁⟩ := e
    simp only [List.map_cons]
    by_cases h₁ : k₁ = k
    · subst h₁
      rw [if_pos rfl, List.lookup_cons, List.lookup_cons]
      by_cases hk : k' = k₁
      · subst hk
        simp
      · simp [hk, ih, beq_false_of_ne hk]
    · rw [if_neg h₁, List.lookup_cons, List.lookup_cons]
      by_cases hk : k' = k₁
      · subst hk
        simp [h₁]
      · simp [ih, beq_false_of_ne hk]

/-- An entry of the list is bound in the map. -/
theorem isSome_get_of_mem {m : HashMap κ ν} {e : κ × ν} (he : e ∈ m) : (get m e.1).isSome := by
  cases h : get m e.1 with
  | none =>
    have := (List.lookup_eq_none_iff.mp h) e he
    simp at this
  | some _ => rfl

/-- A map in which no key is bound has no entries. -/
theorem eq_nil_of_get_eq_none {m : HashMap κ ν} (h : ∀ k, get m k = none) : m = [] := by
  cases m with
  | nil => rfl
  | cons e m =>
    have := h e.1
    simp [get] at this

/-- `Extend::extend`: the entries inserted one after another. -/
def extend (m : HashMap κ ν) (entries : List (κ × ν)) : HashMap κ ν :=
  entries.foldl (fun m e => (m.insert e.1 e.2).2) m

/-- Inserts one after another keep one entry per key. -/
theorem nodup_extend {m : HashMap κ ν} (hm : (m.map Prod.fst).Nodup) (entries : List (κ × ν)) :
    ((m.extend entries).map Prod.fst).Nodup := by
  induction entries generalizing m with
  | nil => exact hm
  | cons e entries ih => exact ih (nodup_insert hm e.1 e.2)

theorem lookup_append_singleton (l : List (κ × ν)) (k₁ : κ) (v₁ : ν) (k : κ) :
    (l ++ [(k₁, v₁)]).lookup k = (l.lookup k).or (if k = k₁ then some v₁ else none) := by
  induction l with
  | nil =>
    by_cases hk : k = k₁
    · subst hk
      simp
    · simp [List.lookup_cons, beq_false_of_ne hk, hk]
  | cons e l ih =>
    obtain ⟨k₂, v₂⟩ := e
    by_cases hk : k = k₂
    · subst hk
      simp
    · simp [List.lookup_cons, beq_false_of_ne hk, ih]

/-- A key bound by the entries takes the last value they give it. -/
theorem get_extend (m : HashMap κ ν) (entries : List (κ × ν)) (k : κ) :
    get (m.extend entries) k = (entries.reverse.lookup k).or (get m k) := by
  induction entries generalizing m with
  | nil => simp [extend]
  | cons e entries ih =>
    obtain ⟨k₁, v₁⟩ := e
    rw [extend, List.foldl_cons, ← extend, ih, get_insert, List.reverse_cons,
      lookup_append_singleton]
    by_cases hk : k = k₁ <;> simp [hk]

theorem lookup_map_const (ks : List κ) (v : ν) (k : κ) :
    (ks.map fun k => (k, v)).lookup k = if k ∈ ks then some v else none := by
  induction ks with
  | nil => simp
  | cons k₁ ks ih =>
    by_cases hk : k = k₁
    · subst hk
      simp
    · simp [List.lookup_cons, beq_false_of_ne hk, hk, ih]

/-- Every key of `ks` bound to one value. -/
theorem get_extend_map (m : HashMap κ ν) (ks : List κ) (v : ν) (k : κ) :
    get (m.extend (ks.map fun k => (k, v))) k = if k ∈ ks then some v else get m k := by
  rw [get_extend, ← List.map_reverse, lookup_map_const]
  by_cases hk : k ∈ ks <;> simp [hk]

/-- With one entry per key, the last value a key takes is its only one. -/
theorem lookup_reverse_of_nodup {l : List (κ × ν)} (hl : (l.map Prod.fst).Nodup) (k : κ) :
    l.reverse.lookup k = l.lookup k := by
  induction l with
  | nil => rfl
  | cons e l ih =>
    obtain ⟨k₁, v₁⟩ := e
    rw [List.map_cons, List.nodup_cons] at hl
    rw [List.reverse_cons, lookup_append_singleton, ih hl.2, List.lookup_cons]
    by_cases hk : k = k₁
    · subst hk
      have hnone : l.lookup k = none := List.lookup_eq_none_iff.mpr fun p hp => by
        have : p.1 ≠ k := fun h => hl.1 (List.mem_map.mpr ⟨p, hp, h⟩)
        simpa using this.symm
      simp [hnone]
    · simp [hk, beq_false_of_ne hk]

omit [DecidableEq κ] in
/-- Keeping, under its key, what `g` makes of each value keeps one entry per key. -/
theorem nodup_filterMap {ν' : Type} (m : HashMap κ ν) (hm : (m.map Prod.fst).Nodup)
    (g : ν → Option ν') (f : κ × ν → Option (κ × ν'))
    (hf : ∀ e, f e = (g e.2).map fun v => (e.1, v)) : ((m.filterMap f).map Prod.fst).Nodup := by
  rw [show f = _ from funext hf]
  induction m with
  | nil => exact List.nodup_nil
  | cons e m ih =>
    obtain ⟨k₁, v₁⟩ := e
    rw [List.map_cons, List.nodup_cons] at hm
    cases hg : g v₁ with
    | none => simpa [hg] using ih hm.2
    | some v =>
      simp only [List.filterMap_cons, hg, Option.map_some, List.map_cons, List.nodup_cons]
      refine ⟨fun hk => hm.1 ?_, ih hm.2⟩
      -- a key kept is a key of the map
      obtain ⟨e, he, rfl⟩ := List.mem_map.mp hk
      obtain ⟨e', he', hee'⟩ := List.mem_filterMap.mp he
      obtain ⟨v', -, rfl⟩ := Option.map_eq_some_iff.mp hee'
      exact List.mem_map.mpr ⟨e', he', rfl⟩

/-- Under one key, what `g` makes of its value. -/
theorem lookup_filterMap {ν' : Type} (m : HashMap κ ν) (hm : (m.map Prod.fst).Nodup)
    (g : ν → Option ν') (f : κ × ν → Option (κ × ν'))
    (hf : ∀ e, f e = (g e.2).map fun v => (e.1, v)) (k : κ) :
    (m.filterMap f).lookup k = (get m k).bind g := by
  rw [show f = _ from funext hf]
  unfold get
  induction m with
  | nil => rfl
  | cons e m ih =>
    obtain ⟨k₁, v₁⟩ := e
    rw [List.map_cons, List.nodup_cons] at hm
    by_cases hk : k = k₁
    · subst hk
      -- the key is bound once
      have hnone : (m.filterMap fun e => (g e.2).map fun v => (e.1, v)).lookup k = none := by
        rw [ih hm.2]
        have : m.lookup k = none := List.lookup_eq_none_iff.mpr fun p hp => by
          have : p.1 ≠ k := fun h => hm.1 (List.mem_map.mpr ⟨p, hp, h⟩)
          simpa using this.symm
        rw [this]
        rfl
      cases hg : g v₁ <;> simp [hg, hnone]
    · cases hg : g v₁ <;> simp [hg, List.lookup_cons, beq_false_of_ne hk, ih hm.2]

end HashMap

/-! ## 2. `BTreeMap` -/

/-- A `BTreeMap`: its entries, read in key order through `values`. -/
abbrev BTreeMap (κ ν : Type) := HashMap κ ν

namespace BTreeMap

variable [LinearOrder κ]

/-- `BTreeMap::values`, in ascending key order. -/
def values (m : BTreeMap κ ν) : List ν :=
  (m.insertionSort fun a b => a.1 ≤ b.1).map Prod.snd

/-- `BTreeMap::split_off(&k)`: the entries below `k` stay, those at `k` or above are returned.
The pair is (what stays, what is returned). -/
def splitOff (m : BTreeMap κ ν) (k : κ) : BTreeMap κ ν × BTreeMap κ ν :=
  (m.filter fun e => e.1 < k, m.filter fun e => k ≤ e.1)

end BTreeMap

/-! ## 3. `BTreeSet` under a comparator -/

/-- A `BTreeSet`: its elements in ascending order under the comparator of its operations. -/
abbrev BTreeSet (α : Type) := List α

namespace BTreeSet

variable (cmp : α → α → Ordering)

/-- `BTreeSet::insert`: `false`, and no change, if an element equal to `x` is present. -/
def insert : BTreeSet α → α → BTreeSet α × Bool
  | [], x => ([x], true)
  | y :: ys, x =>
    match cmp x y with
    | .lt => (x :: y :: ys, true)
    | .eq => (y :: ys, false)
    | .gt => let r := insert ys x; (y :: r.1, r.2)

/-- `BTreeSet::remove`: whether an element equal to `x` was there to remove. -/
def remove : BTreeSet α → α → BTreeSet α × Bool
  | [], _ => ([], false)
  | y :: ys, x =>
    match cmp x y with
    | .eq => (ys, true)
    | _ => let r := remove ys x; (y :: r.1, r.2)

/-- `BTreeSet::pop_last`: the greatest element. -/
def popLast (s : BTreeSet α) : Option α × BTreeSet α := (s.getLast?, s.dropLast)

/-- `BTreeSet::split_off(&x)`: the elements below `x` stay, those at `x` or above are returned.
The pair is (what stays, what is returned). -/
def splitOff (s : BTreeSet α) (x : α) : BTreeSet α × BTreeSet α :=
  (s.filter fun y => cmp y x == .lt, s.filter fun y => cmp y x != .lt)

/-- `Extend::extend`: each element inserted in turn. -/
def extend (s : BTreeSet α) (xs : List α) : BTreeSet α :=
  xs.foldl (fun s x => (insert cmp s x).1) s

end BTreeSet

/-! ## 4. `IndexMap` -/

/-- An `IndexMap`: its entries in insertion order, each key once. -/
structure IndexMap (κ ν : Type) where
  entries : List (κ × ν)
  nodup : (entries.map Prod.fst).Nodup

namespace IndexMap

variable [DecidableEq κ]

/-- `IndexMap::new`. -/
def empty : IndexMap κ ν := ⟨[], List.nodup_nil⟩

/-- `IndexMap::get`. -/
def get (m : IndexMap κ ν) (k : κ) : Option ν := m.entries.lookup k

/-- `IndexMap::contains_key`. -/
def containsKey (m : IndexMap κ ν) (k : κ) : Bool := (m.get k).isSome

/-- `IndexMap::keys`, in insertion order. -/
def keys (m : IndexMap κ ν) : List κ := m.entries.map Prod.fst

/-- `IndexMap::len`. -/
def len (m : IndexMap κ ν) : Nat := m.entries.length

/-- `IndexMap::is_empty`. -/
def isEmpty (m : IndexMap κ ν) : Bool := m.entries.isEmpty

theorem nodup_map_replace (m : IndexMap κ ν) (k : κ) (v : ν) :
    ((m.entries.map fun e => if e.1 = k then (k, v) else e).map Prod.fst).Nodup := by
  have hkeys : (m.entries.map fun e => if e.1 = k then (k, v) else e).map Prod.fst =
      m.entries.map Prod.fst := by
    rw [List.map_map]
    refine List.map_congr_left fun e _ => ?_
    by_cases h : e.1 = k <;> simp [h]
  exact hkeys ▸ m.nodup

theorem nodup_push (m : IndexMap κ ν) {k : κ} (v : ν) (h : m.get k = none) :
    ((m.entries ++ [(k, v)]).map Prod.fst).Nodup := by
  rw [List.map_append, List.nodup_append]
  refine ⟨m.nodup, List.nodup_singleton k, fun a ha b hb => ?_⟩
  simp only [List.map_cons, List.map_nil, List.mem_singleton] at hb
  subst hb
  obtain ⟨e, he, rfl⟩ := List.mem_map.mp ha
  have hne := (List.lookup_eq_none_iff.mp h) e he
  intro hek
  rw [hek] at hne
  simp at hne

/-- `IndexMap::insert`: the value it displaces; a new key goes last, a present key keeps its
place. -/
def insert (m : IndexMap κ ν) (k : κ) (v : ν) : Option ν × IndexMap κ ν :=
  match h : m.get k with
  | some old => (some old, ⟨m.entries.map fun e => if e.1 = k then (k, v) else e,
      nodup_map_replace m k v⟩)
  | none => (none, ⟨m.entries ++ [(k, v)], nodup_push m v h⟩)

theorem insert_fst (m : IndexMap κ ν) (k : κ) (v : ν) : (m.insert k v).1 = m.get k := by
  unfold insert
  split <;> simp_all

theorem insert_entries_of_get_eq_none {m : IndexMap κ ν} {k : κ} (v : ν) (h : m.get k = none) :
    (m.insert k v).2.entries = m.entries ++ [(k, v)] := by
  unfold insert
  split <;> simp_all

theorem insert_entries_of_get_eq_some {m : IndexMap κ ν} {k : κ} {old : ν} (v : ν)
    (h : m.get k = some old) :
    (m.insert k v).2.entries = m.entries.map fun e => if e.1 = k then (k, v) else e := by
  unfold insert
  split <;> simp_all

/-- A new key adds one entry. -/
theorem len_insert_of_get_eq_none {m : IndexMap κ ν} {k : κ} (v : ν) (h : m.get k = none) :
    (m.insert k v).2.len = m.len + 1 := by
  simp [len, insert_entries_of_get_eq_none v h]

/-- Replacing the one binding of `k` changes a sum over the values by the difference. -/
theorem sum_map_replace (g : ν → Nat) {l : List (κ × ν)} (hnd : (l.map Prod.fst).Nodup) {k : κ}
    {old : ν} (hk : l.lookup k = some old) (v : ν) :
    ((l.map fun e => if e.1 = k then (k, v) else e).map fun e => g e.2).sum + g old =
      (l.map fun e => g e.2).sum + g v := by
  induction l with
  | nil => simp at hk
  | cons e l ih =>
    obtain ⟨k', v'⟩ := e
    rw [List.map_cons, List.nodup_cons] at hnd
    by_cases he : k' = k
    · -- the head is the binding of `k`, and the rest is left alone
      subst he
      have hold : v' = old := by simpa [List.lookup_cons] using hk
      have hrest : (l.map fun e => if e.1 = k' then (k', v) else e) = l :=
        List.map_congr_left (fun e he' => if_neg fun (h : e.1 = k') =>
          hnd.1 (List.mem_map.mpr ⟨e, he', h⟩)) |>.trans (List.map_id l)
      simp only [List.map_cons, if_pos, hrest, List.sum_cons, hold]
      omega
    · have hbeq : (k == k') = false := by simpa using Ne.symm he
      have hk' : l.lookup k = some old := by
        simpa [List.lookup_cons, hbeq] using hk
      simp only [List.map_cons, if_neg he, List.sum_cons]
      have := ih hnd.2 hk'
      omega

/-- How `insert` changes a sum over the values. -/
theorem sum_insert (g : ν → Nat) (m : IndexMap κ ν) (k : κ) (v : ν) :
    ((m.insert k v).2.entries.map fun e => g e.2).sum + ((m.get k).map g).getD 0 =
      (m.entries.map fun e => g e.2).sum + g v := by
  cases hk : m.get k with
  | none => simp [insert_entries_of_get_eq_none v hk]
  | some old =>
    rw [insert_entries_of_get_eq_some v hk]
    exact sum_map_replace g m.nodup hk v

/-- A fold that only entries for `k` change sees at most the one binding of `k`. -/
theorem foldl_eq_get {ω : Type} (m : IndexMap κ ν) (k : κ) (upd : κ × ν → ω → ω)
    (hupd : ∀ e acc, e.1 ≠ k → upd e acc = acc) (init : ω) :
    m.entries.foldl (fun acc e => upd e acc) init =
      match m.get k with
      | some v => upd (k, v) init
      | none => init := by
  obtain ⟨es, hnd⟩ := m
  simp only [get]
  induction es generalizing init with
  | nil => rfl
  | cons e es ih =>
    rw [List.map_cons, List.nodup_cons] at hnd
    rw [List.foldl_cons, ih _ hnd.2]
    obtain ⟨k', v'⟩ := e
    by_cases he : k' = k
    · -- the head binds `k`, so no later entry does
      subst he
      have hk : k' ∉ es.map Prod.fst := hnd.1
      have hnone : es.lookup k' = none := by
        rw [List.lookup_eq_none_iff]
        intro p hp
        have : p.1 ≠ k' := fun h => hk (h ▸ List.mem_map_of_mem (f := Prod.fst) hp)
        simpa using this.symm
      simp [hnone]
    · have hbeq : (k == k') = false := by simpa using Ne.symm he
      simp [hupd (k', v') init he, List.lookup_cons, hbeq]

/-- The same, for a fold in which each entry may write over what came before. -/
theorem foldl_or_eq_get {γ : Type} (m : IndexMap κ ν) (k : κ) (f : κ × ν → Option γ)
    (hf : ∀ e, e.1 ≠ k → f e = none) (init : Option γ) :
    m.entries.foldl (fun acc e => (f e).or acc) init = ((m.get k).bind fun v => f (k, v)).or init := by
  rw [foldl_eq_get m k (fun e acc => (f e).or acc) (fun e acc he => by rw [hf e he]; rfl)]
  cases m.get k <;> rfl

theorem mem_of_get_eq_some {m : IndexMap κ ν} {k : κ} {v : ν} (h : m.get k = some v) :
    (k, v) ∈ m.entries := by
  obtain ⟨l₁, l₂, he, -⟩ := List.lookup_eq_some_iff.mp h
  rw [he]
  simp

theorem mem_keys_of_get_eq_some {m : IndexMap κ ν} {k : κ} {v : ν} (h : m.get k = some v) :
    k ∈ m.keys :=
  List.mem_map_of_mem (f := Prod.fst) (mem_of_get_eq_some h)

theorem get_eq_none_of_not_mem_keys {m : IndexMap κ ν} {k : κ} (h : k ∉ m.keys) : m.get k = none := by
  cases hk : m.get k with
  | none => rfl
  | some v => exact absurd (mem_keys_of_get_eq_some hk) h

/-- Rewriting the value of one key, as `insert` does to a present key. -/
theorem lookup_map_replace (l : List (κ × ν)) (k k' : κ) (v : ν) :
    (l.map fun e => if e.1 = k then (k, v) else e).lookup k' =
      if k' = k then (l.lookup k).map fun _ => v else l.lookup k' := by
  induction l with
  | nil => split <;> simp
  | cons e l ih =>
    obtain ⟨a, b⟩ := e
    by_cases ha : a = k
    · -- the head is rewritten
      subst ha
      by_cases hk : k' = a
      · subst hk
        simp
      · have : (k' == a) = false := by simpa using hk
        have ih' : (l.map fun e => if e.1 = a then (a, v) else e).lookup k' = l.lookup k' := by
          simpa [hk] using ih
        rw [if_neg hk]
        simp only [List.map_cons, ↓reduceIte, List.lookup_cons, this, ih']
    · by_cases hk : k' = k
      · subst hk
        have : (k' == a) = false := by simpa using Ne.symm ha
        simp [List.lookup_cons, ha, this, ih]
      · by_cases hka : k' = a
        · subst hka
          simp [ha]
        · have : (k' == a) = false := by simpa using hka
          simp [List.lookup_cons, ha, hk, this, ih]

@[simp] theorem get_insert (m : IndexMap κ ν) (k k' : κ) (v : ν) :
    (m.insert k v).2.get k' = if k' = k then some v else m.get k' := by
  cases hk : m.get k with
  | none =>
    have hk' : m.entries.lookup k = none := hk
    simp only [get, insert_entries_of_get_eq_none v hk, List.lookup_append]
    by_cases h : k' = k
    · subst h
      simp [hk']
    · simp [h, List.lookup_cons, show (k' == k) = false by simpa using h]
  | some old =>
    have hk' : m.entries.lookup k = some old := hk
    simp only [get, insert_entries_of_get_eq_some v hk, lookup_map_replace]
    by_cases h : k' = k
    · subst h
      simp [hk']
    · simp [h]

@[simp] theorem containsKey_insert (m : IndexMap κ ν) (k k' : κ) (v : ν) :
    (m.insert k v).2.containsKey k' = (decide (k' = k) || m.containsKey k') := by
  by_cases h : k' = k <;> simp [containsKey, h]

theorem len_insert (m : IndexMap κ ν) (k : κ) (v : ν) :
    (m.insert k v).2.len = m.len + if m.containsKey k then 0 else 1 := by
  cases hk : m.get k with
  | none => simp [len_insert_of_get_eq_none v hk, containsKey, hk]
  | some old => simp [len, insert_entries_of_get_eq_some v hk, containsKey, hk]

/-- Inserting pairs with distinct keys adds one entry per key the map did not have. -/
theorem len_foldl_insert {l : List (κ × ν)} (hnd : (l.map Prod.fst).Nodup) (m : IndexMap κ ν) :
    (l.foldl (fun m e => (m.insert e.1 e.2).2) m).len =
      m.len + (l.filter fun e => !m.containsKey e.1).length := by
  induction l generalizing m with
  | nil => simp
  | cons e l ih =>
    rw [List.map_cons, List.nodup_cons] at hnd
    rw [List.foldl_cons, ih hnd.2, len_insert]
    -- the later keys differ from `e.1`, so the inserted map contains them exactly when `m` does
    have hrest : (l.filter fun e' => !(m.insert e.1 e.2).2.containsKey e'.1) =
        l.filter fun e' => !m.containsKey e'.1 := by
      refine List.filter_congr fun e' he' => ?_
      have hne : e'.1 ≠ e.1 := fun h => hnd.1 (h ▸ List.mem_map_of_mem (f := Prod.fst) he')
      simp [hne]
    rw [hrest, List.filter_cons]
    by_cases hc : m.containsKey e.1
    · simp [hc]
    · simp [hc]
      omega

/-- `IndexMap::from_iter`, the `collect` of pairs: a key met again keeps its first place and
takes its last value. -/
def fromIter (l : List (κ × ν)) : IndexMap κ ν :=
  l.foldl (fun m e => (m.insert e.1 e.2).2) empty

/-- Collecting pairs into a map: the last pair for a key wins. -/
theorem get_foldl_insert (l : List (κ × ν)) (m : IndexMap κ ν) (k : κ) :
    (l.foldl (fun m e => (m.insert e.1 e.2).2) m).get k = (l.reverse.lookup k).or (m.get k) := by
  induction l generalizing m with
  | nil => simp
  | cons e l ih =>
    obtain ⟨a, b⟩ := e
    rw [List.foldl_cons, ih, get_insert, List.reverse_cons, List.lookup_append]
    by_cases hk : k = a
    · subst hk
      cases l.reverse.lookup k <;> simp
    · simp [hk, List.lookup_cons, show (k == a) = false by simpa using hk]

/-- With distinct keys, a lookup finds exactly the pairs that are there. -/
theorem lookup_eq_some_iff_mem {l : List (κ × ν)} (hnd : (l.map Prod.fst).Nodup) {k : κ} {v : ν} :
    l.lookup k = some v ↔ (k, v) ∈ l := by
  constructor
  · intro h
    obtain ⟨l₁, l₂, he, -⟩ := List.lookup_eq_some_iff.mp h
    simp [he]
  · intro h
    induction l with
    | nil => simp at h
    | cons e l ih =>
      obtain ⟨a, b⟩ := e
      rw [List.map_cons, List.nodup_cons] at hnd
      rcases List.mem_cons.mp h with he | hl
      · simp only [Prod.mk.injEq] at he
        obtain ⟨rfl, rfl⟩ := he
        simp
      · -- `k` is bound further on, so it is not the head's key
        have hkl : k ∈ l.map Prod.fst := List.mem_map_of_mem (f := Prod.fst) hl
        have hka : k ≠ a := fun hka => hnd.1 (hka ▸ hkl)
        simp [List.lookup_cons, show (k == a) = false by simpa using hka, ih hnd.2 hl]

/-- Reordering the entries of a map does not change its lookups. -/
theorem lookup_eq_of_perm {l₁ l₂ : List (κ × ν)} (hp : l₁.Perm l₂) (hnd : (l₁.map Prod.fst).Nodup)
    (k : κ) : l₁.lookup k = l₂.lookup k := by
  have hnd₂ : (l₂.map Prod.fst).Nodup := (hp.map Prod.fst).nodup_iff.mp hnd
  apply Option.ext
  intro v
  rw [lookup_eq_some_iff_mem hnd, lookup_eq_some_iff_mem hnd₂, hp.mem_iff]

/-- A map's entries read backwards give the same lookups. -/
theorem lookup_reverse_entries (m : IndexMap κ ν) (k : κ) : m.entries.reverse.lookup k = m.get k :=
  (lookup_eq_of_perm (List.reverse_perm _) (((List.reverse_perm _).map _).nodup_iff.mpr m.nodup) k)

/-- `IndexMap::sort_unstable_keys`: the entries in ascending key order.  Keys are distinct, so
the order of equal keys, which an unstable sort leaves open, never arises. -/
def sortUnstableKeys [LinearOrder κ] (m : IndexMap κ ν) : IndexMap κ ν :=
  ⟨m.entries.insertionSort fun a b => a.1 ≤ b.1,
    ((List.perm_insertionSort _ _).map Prod.fst).nodup_iff.mpr m.nodup⟩

@[simp] theorem get_sortUnstableKeys [LinearOrder κ] (m : IndexMap κ ν) (k : κ) :
    m.sortUnstableKeys.get k = m.get k :=
  lookup_eq_of_perm (List.perm_insertionSort _ _)
    (((List.perm_insertionSort _ _).map _).nodup_iff.mpr m.nodup) k

omit [DecidableEq κ] in
@[simp] theorem len_sortUnstableKeys [LinearOrder κ] (m : IndexMap κ ν) :
    m.sortUnstableKeys.len = m.len :=
  (List.perm_insertionSort _ _).length_eq

end IndexMap

end Sequencer
