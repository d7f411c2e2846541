/-
# Exclusive ownership of resources by threads

Many threads, each at a position `ws w : π`.  A VIEW `v : π → Option κ` reads off a position the
resource it currently owns, if any (a task in hand, a lock, an index being committed).  Two
notions describe the whole system through a view:

* `Held v ws k`: some thread owns `k`;
* `Exclusive v ws`: no resource is owned by two threads.

A step moves ONE thread, `Function.update ws w p`.  The lemmas below say what that does to both
notions in the three cases that occur: the thread keeps what it owned (`_of_eq`), it takes a
resource while owning none (`_acquire`), or it gives one up (`_release`).  An invariant of the form
"shared state records exactly what is held" is then preserved by a step that changes the shared
record of the same resource in the same way.
-/
import Mathlib.Logic.Function.Basic

namespace Sequencer

variable {ι π κ : Type}

/-- Some thread owns `k`. -/
def Held (v : π → Option κ) (ws : ι → π) (k : κ) : Prop := ∃ w, v (ws w) = some k

/-- No resource has two owners. -/
def Exclusive (v : π → Option κ) (ws : ι → π) : Prop :=
  ∀ k w₁ w₂, v (ws w₁) = some k → v (ws w₂) = some k → w₁ = w₂

variable {v : π → Option κ} {ws : ι → π} {w : ι} {p : π}

theorem Held.intro (w : ι) {k : κ} (h : v (ws w) = some k) : Held v ws k := ⟨w, h⟩

/-- Nobody holds anything when every thread is at a position that owns nothing. -/
theorem not_held_of_forall_none (h : ∀ u, v (ws u) = none) (k : κ) : ¬ Held v ws k := by
  rintro ⟨u, hu⟩
  rw [h u] at hu
  cases hu

theorem exclusive_of_forall_none (h : ∀ u, v (ws u) = none) : Exclusive v ws := by
  intro k w₁ _ h₁ _
  rw [h w₁] at h₁
  cases h₁

variable [DecidableEq ι]

/-- Moving a thread to a position that looks the same through `f` changes nothing `f` sees. -/
theorem view_update_of_eq {β : Type} {f : π → β} (h : f p = f (ws w)) (u : ι) :
    f (Function.update ws w p u) = f (ws u) := by
  by_cases hu : u = w
  · subst hu
    rw [Function.update_self, h]
  · rw [Function.update_of_ne hu]

/-- A thread that keeps its resource or gives it up makes nothing newly held. -/
theorem Held.of_update (h : v p = none ∨ v p = v (ws w)) {k : κ}
    (hk : Held v (Function.update ws w p) k) : Held v ws k := by
  obtain ⟨u, hu⟩ := hk
  by_cases huw : u = w
  · subst huw
    rw [Function.update_self] at hu
    rcases h with h | h
    · rw [h] at hu
      cases hu
    · exact ⟨u, h ▸ hu⟩
  · exact ⟨u, by rwa [Function.update_of_ne huw] at hu⟩

/-- A thread that keeps its resource changes nothing about who holds what. -/
theorem held_update_of_eq (h : v p = v (ws w)) (k : κ) :
    Held v (Function.update ws w p) k ↔ Held v ws k := by
  constructor
  · rintro ⟨w', hw'⟩
    by_cases hw : w' = w
    · subst hw
      rw [Function.update_self, h] at hw'
      exact ⟨w', hw'⟩
    · rw [Function.update_of_ne hw] at hw'
      exact ⟨w', hw'⟩
  · rintro ⟨w', hw'⟩
    by_cases hw : w' = w
    · subst hw
      exact ⟨w', by rw [Function.update_self, h, hw']⟩
    · exact ⟨w', by rw [Function.update_of_ne hw, hw']⟩

theorem exclusive_update_of_eq (h : v p = v (ws w)) (hex : Exclusive v ws) :
    Exclusive v (Function.update ws w p) := by
  intro k w₁ w₂ h₁ h₂
  rw [view_update_of_eq h] at h₁ h₂
  exact hex k w₁ w₂ h₁ h₂

/-- A thread owning nothing takes `r`. -/
theorem held_update_acquire {r : κ} (hw : v (ws w) = none) (hp : v p = some r) (k : κ) :
    Held v (Function.update ws w p) k ↔ k = r ∨ Held v ws k := by
  constructor
  · rintro ⟨w', hw'⟩
    by_cases hu : w' = w
    · subst hu
      rw [Function.update_self, hp, Option.some.injEq] at hw'
      exact Or.inl hw'.symm
    · rw [Function.update_of_ne hu] at hw'
      exact Or.inr ⟨w', hw'⟩
  · rintro (rfl | ⟨w', hw'⟩)
    · exact ⟨w, by rw [Function.update_self, hp]⟩
    · have hu : w' ≠ w := by
        rintro rfl
        rw [hw] at hw'
        cases hw'
      exact ⟨w', by rw [Function.update_of_ne hu, hw']⟩

theorem exclusive_update_acquire {r : κ} (hp : v p = some r) (hfree : ¬ Held v ws r)
    (hex : Exclusive v ws) : Exclusive v (Function.update ws w p) := by
  intro k w₁ w₂ h₁ h₂
  by_cases hu₁ : w₁ = w <;> by_cases hu₂ : w₂ = w
  · rw [hu₁, hu₂]
  · subst hu₁
    rw [Function.update_self, hp] at h₁
    rw [Function.update_of_ne hu₂, ← h₁] at h₂
    exact absurd ⟨w₂, h₂⟩ hfree
  · subst hu₂
    rw [Function.update_self, hp] at h₂
    rw [Function.update_of_ne hu₁, ← h₂] at h₁
    exact absurd ⟨w₁, h₁⟩ hfree
  · rw [Function.update_of_ne hu₁] at h₁
    rw [Function.update_of_ne hu₂] at h₂
    exact hex k w₁ w₂ h₁ h₂

/-- The only owner of `r` gives it up and owns nothing afterwards. -/
theorem held_update_release {r : κ} (hex : Exclusive v ws) (hw : v (ws w) = some r)
    (hp : v p = none) (k : κ) :
    Held v (Function.update ws w p) k ↔ k ≠ r ∧ Held v ws k := by
  constructor
  · rintro ⟨w', hw'⟩
    have hu : w' ≠ w := by
      rintro rfl
      rw [Function.update_self, hp] at hw'
      cases hw'
    rw [Function.update_of_ne hu] at hw'
    refine ⟨?_, w', hw'⟩
    rintro rfl
    exact hu (hex k w' w hw' hw)
  · rintro ⟨hk, w', hw'⟩
    have hu : w' ≠ w := by
      rintro rfl
      rw [hw, Option.some.injEq] at hw'
      exact hk hw'.symm
    exact ⟨w', by rw [Function.update_of_ne hu, hw']⟩

theorem exclusive_update_release (hp : v p = none) (hex : Exclusive v ws) :
    Exclusive v (Function.update ws w p) := by
  intro k w₁ w₂ h₁ h₂
  have hu₁ : w₁ ≠ w := by
    rintro rfl
    rw [Function.update_self, hp] at h₁
    cases h₁
  have hu₂ : w₂ ≠ w := by
    rintro rfl
    rw [Function.update_self, hp] at h₂
    cases h₂
  rw [Function.update_of_ne hu₁] at h₁
  rw [Function.update_of_ne hu₂] at h₂
  exact hex k w₁ w₂ h₁ h₂

/-- Who holds `k` after one thread moved: that thread, or someone who held it before. -/
theorem Held.update_cases {k : κ} (hk : Held v (Function.update ws w p) k) :
    v p = some k ∨ Held v ws k := by
  obtain ⟨u, hu⟩ := hk
  by_cases huw : u = w
  · subst huw
    rw [Function.update_self] at hu
    exact Or.inl hu
  · exact Or.inr ⟨u, by rwa [Function.update_of_ne huw] at hu⟩

/-- A shared record that agrees with `H` keeps agreeing after it changes at one key `k₀`, if the
new predicate agrees with `H` away from `k₀` and at `k₀`. -/
theorem iff_update_of_iff {β : Type} [DecidableEq κ] {r : κ → β} {H H' : κ → Prop} {k₀ : κ}
    {x target : β} (hr : ∀ k, r k = target ↔ H k) (hne : ∀ k, k ≠ k₀ → (H' k ↔ H k))
    (h₀ : x = target ↔ H' k₀) (k : κ) : Function.update r k₀ x k = target ↔ H' k := by
  by_cases hk : k = k₀
  · subst hk
    rw [Function.update_self]
    exact h₀
  · rw [Function.update_of_ne hk, hne k hk]
    exact hr k

end Sequencer
