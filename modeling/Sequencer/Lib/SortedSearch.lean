/-
# Binary search on a sorted list

`binarySearch` is the contract of a binary search on a list sorted without duplicates, the case in
which its answer is determined: `Ok` with the position of the value, or `Err` with the position
where the value would be inserted.  On such a list both positions are the length of the run of
elements below the value (`binarySearch_of_mem`, `binarySearch_of_not_mem`), the run is every
element below the value (`Pairwise.takeWhile_eq_filter`), and cutting the list at the positions
found for two values `lo ≤ hi` separates the elements in `[lo, hi]` from the others
(`drop_take_window`, `take_append_drop_window`).  Nothing here names the program it is used for.
-/
import Mathlib.Order.Lattice
import Mathlib.Data.List.Basic

namespace Sequencer.SortedSearch

variable {α : Type}

/-! ## 1. Prefixes cut by a predicate -/

theorem take_length_takeWhile (p : α → Bool) (xs : List α) :
    xs.take (xs.takeWhile p).length = xs.takeWhile p := by
  induction xs with
  | nil => rfl
  | cons x xs ih =>
    by_cases hx : p x = true
    · rw [List.takeWhile_cons_of_pos hx, List.length_cons, List.take_succ_cons, ih]
    · rw [List.takeWhile_cons_of_neg hx, List.length_nil, List.take_zero]

theorem drop_length_takeWhile (p : α → Bool) (xs : List α) :
    xs.drop (xs.takeWhile p).length = xs.dropWhile p := by
  induction xs with
  | nil => rfl
  | cons x xs ih =>
    by_cases hx : p x = true
    · rw [List.takeWhile_cons_of_pos hx, List.length_cons, List.drop_succ_cons, ih,
        List.dropWhile_cons_of_pos hx]
    · rw [List.takeWhile_cons_of_neg hx, List.length_nil, List.drop_zero,
        List.dropWhile_cons_of_neg hx]

theorem takeWhile_eq_nil_of_forall {p : α → Bool} {xs : List α} (h : ∀ x ∈ xs, p x = false) :
    xs.takeWhile p = [] := by
  cases xs with
  | nil => rfl
  | cons x xs => exact List.takeWhile_cons_of_neg (by simp [h x List.mem_cons_self])

theorem takeWhile_congr {p q : α → Bool} {xs : List α} (h : ∀ x ∈ xs, p x = q x) :
    xs.takeWhile p = xs.takeWhile q := by
  induction xs with
  | nil => rfl
  | cons x xs ih =>
    have ih' := ih fun y hy => h y (List.mem_cons_of_mem _ hy)
    by_cases hx : p x = true
    · rw [List.takeWhile_cons_of_pos hx, List.takeWhile_cons_of_pos (h x List.mem_cons_self ▸ hx),
        ih']
    · rw [List.takeWhile_cons_of_neg hx,
        List.takeWhile_cons_of_neg (h x List.mem_cons_self ▸ hx)]

/-- A weaker predicate runs at least as far. -/
theorem length_takeWhile_le_of_imp {p q : α → Bool} (hpq : ∀ x, p x = true → q x = true)
    (xs : List α) : (xs.takeWhile p).length ≤ (xs.takeWhile q).length := by
  induction xs with
  | nil => exact Nat.le_refl _
  | cons x xs ih =>
    by_cases hx : p x = true
    · rw [List.takeWhile_cons_of_pos hx, List.takeWhile_cons_of_pos (hpq x hx),
        List.length_cons, List.length_cons]
      exact Nat.succ_le_succ ih
    · rw [List.takeWhile_cons_of_neg hx, List.length_nil]
      exact Nat.zero_le _

variable [LinearOrder α]

/-- On a sorted list, a predicate that holds below wherever it holds runs over exactly the
elements it holds of. -/
theorem Pairwise.takeWhile_eq_filter {xs : List α} (hsorted : xs.Pairwise (· < ·))
    {p : α → Bool} (hdown : ∀ x y, x < y → p y = true → p x = true) :
    xs.takeWhile p = xs.filter p ∧ xs.dropWhile p = xs.filter (fun x => !p x) := by
  induction xs with
  | nil => exact ⟨rfl, rfl⟩
  | cons x xs ih =>
    obtain ⟨hx, hxs⟩ := List.pairwise_cons.mp hsorted
    by_cases hpx : p x = true
    · obtain ⟨ht, hd⟩ := ih hxs
      rw [List.takeWhile_cons_of_pos hpx, List.filter_cons_of_pos hpx, ht,
        List.dropWhile_cons_of_pos hpx, hd, List.filter_cons_of_neg (by simp [hpx])]
      exact ⟨rfl, rfl⟩
    · -- nothing after `x` satisfies `p` either
      have hnone : ∀ y ∈ xs, p y = false := fun y hy =>
        Bool.eq_false_iff.mpr fun hpy => hpx (hdown x y (hx y hy) hpy)
      rw [List.takeWhile_cons_of_neg hpx, List.filter_cons_of_neg hpx,
        List.dropWhile_cons_of_neg hpx, List.filter_cons_of_pos (by simp [hpx])]
      refine ⟨(List.filter_eq_nil_iff.mpr fun y hy => by simp [hnone y hy]).symm, ?_⟩
      rw [List.filter_eq_self.mpr fun y hy => by simp [hnone y hy]]

/-! ## 2. The search -/

/-- A binary search on a list sorted without duplicates. -/
def binarySearch : List α → α → Except Nat Nat
  | [], _ => .error 0
  | x :: xs, value =>
    if x = value then .ok 0
    else if value < x then .error 0
    else
      match binarySearch xs value with
      | .ok pos => .ok (pos + 1)
      | .error pos => .error (pos + 1)

variable {xs : List α} {value : α}

theorem binarySearch_of_mem (hsorted : xs.Pairwise (· < ·)) (hmem : value ∈ xs) :
    binarySearch xs value = .ok (xs.takeWhile (· < value)).length := by
  induction xs with
  | nil => cases hmem
  | cons x xs ih =>
    obtain ⟨hx, hxs⟩ := List.pairwise_cons.mp hsorted
    by_cases hxv : x = value
    · subst hxv
      simp [binarySearch]
    · -- the value is further on, so `x` is below it
      have hmem' : value ∈ xs := (List.mem_cons.mp hmem).resolve_left (Ne.symm hxv)
      have hlt : x < value := hx value hmem'
      simp [binarySearch, hxv, not_lt.mpr hlt.le, ih hxs hmem', List.takeWhile_cons_of_pos,
        hlt]

theorem binarySearch_of_not_mem (hsorted : xs.Pairwise (· < ·)) (hmem : value ∉ xs) :
    binarySearch xs value = .error (xs.takeWhile (· < value)).length := by
  induction xs with
  | nil => rfl
  | cons x xs ih =>
    obtain ⟨-, hxs⟩ := List.pairwise_cons.mp hsorted
    have hxv : x ≠ value := fun h => hmem (h ▸ List.mem_cons_self)
    have hmem' : value ∉ xs := fun h => hmem (List.mem_cons_of_mem _ h)
    rcases lt_or_gt_of_ne hxv with hlt | hgt
    · simp [binarySearch, hxv, not_lt.mpr hlt.le, ih hxs hmem', hlt]
    · simp [binarySearch, hxv, hgt, not_lt.mpr hgt.le]

/-- The run up to a member of a sorted list reaches one further than the run below it. -/
theorem length_takeWhile_le_of_mem (hsorted : xs.Pairwise (· < ·)) (hmem : value ∈ xs) :
    (xs.takeWhile (· ≤ value)).length = (xs.takeWhile (· < value)).length + 1 := by
  induction xs with
  | nil => cases hmem
  | cons x xs ih =>
    obtain ⟨hx, hxs⟩ := List.pairwise_cons.mp hsorted
    by_cases hxv : x = value
    · subst hxv
      -- everything after the value is above it
      have habove : ∀ y ∈ xs, ¬ y ≤ x := fun y hy => not_le.mpr (hx y hy)
      rw [List.takeWhile_cons_of_pos (by simp), List.takeWhile_cons_of_neg (by simp),
        List.length_cons, List.length_nil,
        takeWhile_eq_nil_of_forall fun y hy => by simpa using habove y hy, List.length_nil]
    · have hmem' : value ∈ xs := (List.mem_cons.mp hmem).resolve_left (Ne.symm hxv)
      have hlt : x < value := hx value hmem'
      rw [List.takeWhile_cons_of_pos (by simpa using hlt.le),
        List.takeWhile_cons_of_pos (by simpa using hlt), List.length_cons, List.length_cons,
        ih hxs hmem']

/-- ... and is the run below it when the value is not in the list. -/
theorem length_takeWhile_le_of_not_mem (hmem : value ∉ xs) :
    (xs.takeWhile (· ≤ value)).length = (xs.takeWhile (· < value)).length := by
  have hiff : ∀ x ∈ xs, (decide (x ≤ value)) = decide (x < value) := fun x hx => by
    have : x ≠ value := fun h => hmem (h ▸ hx)
    simp [le_iff_lt_or_eq, this]
  rw [takeWhile_congr hiff]

/-! ## 3. Windows -/

variable {lo hi : α}

/-- Cut at the end of the run below `lo` and at the end of the run up to `hi ≥ lo`, a sorted list
keeps in the middle its elements in `[lo, hi]`. -/
theorem drop_take_window (hsorted : xs.Pairwise (· < ·)) (hlohi : lo ≤ hi) :
    (xs.take (xs.takeWhile (· ≤ hi)).length).drop (xs.takeWhile (· < lo)).length =
      xs.filter (fun x => lo ≤ x ∧ x ≤ hi) := by
  induction xs with
  | nil => rfl
  | cons x xs ih =>
    obtain ⟨hx, hxs⟩ := List.pairwise_cons.mp hsorted
    by_cases hxlo : x < lo
    · rw [List.takeWhile_cons_of_pos (by simpa using hxlo),
        List.takeWhile_cons_of_pos (by simpa using (hxlo.trans_le hlohi).le), List.length_cons,
        List.length_cons, List.take_succ_cons, List.drop_succ_cons, ih hxs,
        List.filter_cons_of_neg (by simp [not_le.mpr hxlo])]
    · -- from `x` on, nothing is below `lo`
      have hnone : xs.takeWhile (· < lo) = [] :=
        takeWhile_eq_nil_of_forall fun y hy => by
          simpa using fun h => hxlo ((hx y hy).trans h)
      rw [List.takeWhile_cons_of_neg (by simpa using hxlo), List.length_nil, List.drop_zero]
      have ih' := ih hxs
      rw [hnone, List.length_nil, List.drop_zero] at ih'
      by_cases hxhi : x ≤ hi
      · rw [List.takeWhile_cons_of_pos (by simpa using hxhi), List.length_cons,
          List.take_succ_cons, ih', List.filter_cons_of_pos (by simp [not_lt.mp hxlo, hxhi])]
      · -- and nothing after `x` is up to `hi`
        have hnone' : ∀ y ∈ xs, ¬ (lo ≤ y ∧ y ≤ hi) := fun y hy h =>
          hxhi ((hx y hy).le.trans h.2)
        rw [List.takeWhile_cons_of_neg (by simpa using hxhi), List.length_nil, List.take_zero,
          List.filter_cons_of_neg (by simp [hxhi]),
          List.filter_eq_nil_iff.mpr fun y hy h => hnone' y hy (of_decide_eq_true h)]

/-- ... and before and after it, the elements outside `[lo, hi]`. -/
theorem take_append_drop_window (hsorted : xs.Pairwise (· < ·)) (hlohi : lo ≤ hi) :
    xs.take (xs.takeWhile (· < lo)).length ++ xs.drop (xs.takeWhile (· ≤ hi)).length =
      xs.filter (fun x => ¬ (lo ≤ x ∧ x ≤ hi)) := by
  induction xs with
  | nil => rfl
  | cons x xs ih =>
    obtain ⟨hx, hxs⟩ := List.pairwise_cons.mp hsorted
    by_cases hxlo : x < lo
    · rw [List.takeWhile_cons_of_pos (by simpa using hxlo),
        List.takeWhile_cons_of_pos (by simpa using (hxlo.trans_le hlohi).le), List.length_cons,
        List.length_cons, List.take_succ_cons, List.drop_succ_cons, List.cons_append, ih hxs,
        List.filter_cons_of_pos (by simp [not_le.mpr hxlo])]
    · have hnone : xs.takeWhile (· < lo) = [] :=
        takeWhile_eq_nil_of_forall fun y hy => by
          simpa using fun h => hxlo ((hx y hy).trans h)
      rw [List.takeWhile_cons_of_neg (by simpa using hxlo), List.length_nil, List.take_zero,
        List.nil_append]
      have ih' := ih hxs
      rw [hnone, List.length_nil, List.take_zero, List.nil_append] at ih'
      by_cases hxhi : x ≤ hi
      · rw [List.takeWhile_cons_of_pos (by simpa using hxhi), List.length_cons,
          List.drop_succ_cons, ih', List.filter_cons_of_neg (by simp [not_lt.mp hxlo, hxhi])]
      · have hall : ∀ y ∈ x :: xs, ¬ (lo ≤ y ∧ y ≤ hi) := by
          intro y hy h
          rcases List.mem_cons.mp hy with rfl | hy
          · exact hxhi h.2
          · exact hxhi ((hx y hy).le.trans h.2)
        rw [List.takeWhile_cons_of_neg (by simpa using hxhi), List.length_nil, List.drop_zero,
          List.filter_eq_self.mpr fun y hy => decide_eq_true (hall y hy)]

end Sequencer.SortedSearch
