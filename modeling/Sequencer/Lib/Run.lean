/-
# Runs of a partial step function with outputs

A system whose atomic steps are chosen by an adversary (a scheduler picking the next worker, a
caller picking the next request) is a function `step : σ → α → Option (σ × List ω)`: the choice
`a` resolves everything the step does not decide itself, `none` is a step that fails (an
assertion, a panic), and the list is what the step emits to an observer.  A RUN follows a whole
schedule of choices, concatenating the outputs, and fails as soon as one of its steps fails.

Two rules carry every proof about such runs:

* `runFrom_inv`: a property of the state TOGETHER WITH the outputs so far that the initial pair
  satisfies and every step preserves holds at the end of every run;
* `run_isSome`: if an invariant guarantees that no step fails and is preserved, no run fails.

A third rule is for a total step that is run along one schedule fixed in advance, when what a
step preserves depends on where in the schedule it is (a message that is delivered once is not
among those delivered before it): `foldl_prefix_inv` indexes the invariant by the prefix of the
schedule taken so far.

The last section turns a successful fallible fold (`foldlM` in `Except`) into the pure fold of
what its steps did.

Nothing here names the systems it is used for.
-/
import Mathlib.Logic.Basic

namespace Sequencer

variable {σ α ω : Type}

/-! ## 1. Runs -/

/-- Runs `step` along a schedule, starting from a state and the outputs emitted so far. -/
def runFrom (step : σ → α → Option (σ × List ω)) : σ × List ω → List α → Option (σ × List ω)
  | p, [] => some p
  | p, a :: as =>
    match step p.1 a with
    | none => none
    | some r => runFrom step (r.1, p.2 ++ r.2) as

/-- Runs `step` along a schedule from a state, with nothing emitted yet. -/
def run (step : σ → α → Option (σ × List ω)) (s : σ) (as : List α) : Option (σ × List ω) :=
  runFrom step (s, []) as

@[simp] theorem runFrom_nil (step : σ → α → Option (σ × List ω)) (p : σ × List ω) :
    runFrom step p [] = some p := rfl

theorem runFrom_cons (step : σ → α → Option (σ × List ω)) (p : σ × List ω) (a : α)
    (as : List α) :
    runFrom step p (a :: as) =
      (step p.1 a).bind fun r => runFrom step (r.1, p.2 ++ r.2) as := by
  simp only [runFrom]
  cases step p.1 a <;> rfl

/-- A run along `as ++ bs` is the run along `as` continued along `bs`. -/
theorem runFrom_append (step : σ → α → Option (σ × List ω)) :
    ∀ (p : σ × List ω) (as bs : List α),
      runFrom step p (as ++ bs) = (runFrom step p as).bind fun q => runFrom step q bs
  | p, [], bs => rfl
  | p, a :: as, bs => by
    rw [List.cons_append, runFrom_cons, runFrom_cons]
    cases step p.1 a with
    | none => rfl
    | some r => exact runFrom_append step (r.1, p.2 ++ r.2) as bs

/-! ## 2. Invariants of runs -/

/-- **The invariant rule.**  A property of the state and of everything emitted so far, true at
the start and preserved by every successful step, holds after every successful run. -/
theorem runFrom_inv (step : σ → α → Option (σ × List ω)) (P : σ → List ω → Prop)
    (hstep : ∀ s os a s' o, P s os → step s a = some (s', o) → P s' (os ++ o)) :
    ∀ (p : σ × List ω) (as : List α) (q : σ × List ω),
      P p.1 p.2 → runFrom step p as = some q → P q.1 q.2
  | p, [], q, hp, h => by
    cases h
    exact hp
  | p, a :: as, q, hp, h => by
    rw [runFrom_cons] at h
    cases hs : step p.1 a with
    | none => rw [hs] at h; cases h
    | some r =>
      rw [hs] at h
      exact runFrom_inv step P hstep _ as q (hstep p.1 p.2 a r.1 r.2 hp hs) h

/-- The invariant rule for a property of the state alone. -/
theorem run_inv (step : σ → α → Option (σ × List ω)) (I : σ → Prop)
    (hstep : ∀ s a s' o, I s → step s a = some (s', o) → I s') {s : σ} {as : List α}
    {q : σ × List ω} (hs : I s) (h : run step s as = some q) : I q.1 :=
  runFrom_inv step (fun t _ => I t) (fun t _ a t' o ht hst => hstep t a t' o ht hst)
    (s, []) as q hs h

/-- **No run fails** when an invariant rules out every failing step. -/
theorem runFrom_isSome (step : σ → α → Option (σ × List ω)) (I : σ → Prop)
    (hprog : ∀ s a, I s → (step s a).isSome)
    (hstep : ∀ s a s' o, I s → step s a = some (s', o) → I s') :
    ∀ (p : σ × List ω) (as : List α), I p.1 → (runFrom step p as).isSome
  | p, [], _ => rfl
  | p, a :: as, hp => by
    rw [runFrom_cons]
    obtain ⟨r, hr⟩ := Option.isSome_iff_exists.mp (hprog p.1 a hp)
    rw [hr, Option.bind_some]
    exact runFrom_isSome step I hprog hstep _ as (hstep p.1 a r.1 r.2 hp hr)

theorem run_isSome (step : σ → α → Option (σ × List ω)) (I : σ → Prop)
    (hprog : ∀ s a, I s → (step s a).isSome)
    (hstep : ∀ s a s' o, I s → step s a = some (s', o) → I s') {s : σ} (hs : I s)
    (as : List α) : (run step s as).isSome :=
  runFrom_isSome step I hprog hstep (s, []) as hs

/-- **The invariant rule along one schedule.**  A property of the prefix of `l` taken so far and
of the state, true of the empty prefix and carried by the step on the element after each
prefix, holds after the whole of `l`.  The step may use the whole split `l = D ++ x :: R`. -/
theorem foldl_prefix_inv {β : Type} {l : List α} (f : β → α → β) (I : List α → β → Prop) {b : β}
    (h0 : I [] b) (hstep : ∀ D x R, l = D ++ x :: R → ∀ s, I D s → I (D ++ [x]) (f s x)) :
    I l (l.foldl f b) := by
  -- the rest `R` of the schedule, after a prefix `D` that `I` holds for
  have hrest : ∀ R D s, D ++ R = l → I D s → I l (R.foldl f s) := by
    intro R
    induction R with
    | nil =>
      intro D s hD hs
      rw [List.append_nil] at hD
      subst hD
      exact hs
    | cons x R ih =>
      intro D s hD hs
      exact ih (D ++ [x]) (f s x) (by rw [List.append_assoc]; exact hD) (hstep D x R hD.symm s hs)
  exact hrest l [] b rfl h0

/-! ## 3. Fallible folds -/

theorem bind_eq_ok {ε α β : Type} {x : Except ε α} {f : α → Except ε β} {b : β} :
    x >>= f = .ok b ↔ ∃ a, x = .ok a ∧ f a = .ok b := by
  cases x <;> simp [bind, Except.bind]

theorem pure_eq_ok {ε α : Type} {a b : α} : (pure a : Except ε α) = .ok b ↔ a = b := by
  simp [pure, Except.pure]

/-- A fallible fold that succeeds is the pure fold of what each of its steps did. -/
theorem foldlM_eq_ok {ε σ α : Type} (op : σ → α → Except ε σ) (g : σ → α → σ)
    (hop : ∀ s a s', op s a = .ok s' → s' = g s a) :
    ∀ (l : List α) (s s' : σ), l.foldlM op s = .ok s' → s' = l.foldl g s
  | [], s, s', h => by
    simp only [List.foldlM_nil] at h
    cases h
    rfl
  | a :: l, s, s', h => by
    rw [List.foldlM_cons] at h
    cases hs : op s a with
    | error e =>
      rw [hs] at h
      cases h
    | ok s₁ =>
      rw [hs] at h
      rw [List.foldl_cons, ← hop s a s₁ hs]
      exact foldlM_eq_ok op g hop l s₁ s' h

/-- **The invariant rule for a fallible fold.**  A property of the elements folded so far and of
the state, carried by every successful step, holds after a successful fold.  As in
`foldl_prefix_inv`, the step may use the whole split `l = D ++ a :: R`. -/
theorem foldlM_inv {ε σ α : Type} (op : σ → α → Except ε σ) (I : List α → σ → Prop) {l : List α}
    (hstep : ∀ D a R s s', l = D ++ a :: R → I D s → op s a = .ok s' → I (D ++ [a]) s')
    {s s' : σ} (hs : I [] s) (h : l.foldlM op s = .ok s') : I l s' := by
  -- the rest `R` of the list, after a prefix `D` that `I` holds for
  have hrest : ∀ R D s, D ++ R = l → I D s → R.foldlM op s = .ok s' → I l s' := by
    intro R
    induction R with
    | nil =>
      intro D s hD hs h
      simp only [List.foldlM_nil] at h
      cases h
      rw [List.append_nil] at hD
      exact hD ▸ hs
    | cons a R ih =>
      intro D s hD hs h
      rw [List.foldlM_cons] at h
      cases ha : op s a with
      | error e =>
        rw [ha] at h
        cases h
      | ok s₁ =>
        rw [ha] at h
        exact ih (D ++ [a]) s₁ (by rw [List.append_assoc]; exact hD)
          (hstep D a R s s₁ hD.symm hs ha) h
  exact hrest l [] s rfl hs h

/-- A fold over a pair whose components are updated independently is a pair of folds. -/
theorem foldl_pair {β ω₁ ω₂ : Type} (f : ω₁ → β → ω₁) (g : ω₂ → β → ω₂) (l : List β) (x : ω₁)
    (y : ω₂) : l.foldl (fun p e => (f p.1 e, g p.2 e)) (x, y) = (l.foldl f x, l.foldl g y) := by
  induction l generalizing x y with
  | nil => rfl
  | cons e l ih => exact ih (f x e) (g y e)

/-! ## 4. Iterators

An iterator is a partial `next : σ → Option (α × σ)`, and its consumer calls it until it
returns `none`; `drain` does so with fuel.  `drain_eq` says what it collects: a function of the
state that unfolds as `next` does, on the states an invariant describes, is what any fuel above
a measure that every `next` lowers collects. -/

/-- Calls `next` until it returns `none`, at most `fuel` times, and collects what it returns. -/
def drain (next : σ → Option (α × σ)) : Nat → σ → List α
  | 0, _ => []
  | fuel + 1, s =>
    match next s with
    | none => []
    | some (a, s') => a :: drain next fuel s'

/-- **What an iterator yields**, with enough fuel. -/
theorem drain_eq (next : σ → Option (α × σ)) (I : σ → Prop) (spec : σ → List α) (μ : σ → Nat)
    (hnone : ∀ s, I s → next s = none → spec s = [])
    (hsome : ∀ s a s', I s → next s = some (a, s') → spec s = a :: spec s' ∧ I s' ∧ μ s' < μ s) :
    ∀ (fuel : Nat) (s : σ), I s → μ s < fuel → drain next fuel s = spec s
  | 0, _, _, h => absurd h (Nat.not_lt_zero _)
  | fuel + 1, s, hs, h => by
    cases hn : next s with
    | none => simp [drain, hn, hnone s hs hn]
    | some r =>
      obtain ⟨a, s'⟩ := r
      obtain ⟨hspec, hs', hlt⟩ := hsome s a s' hs hn
      simp only [drain, hn, hspec]
      rw [drain_eq next I spec μ hnone hsome fuel s' hs' (by omega)]

end Sequencer
