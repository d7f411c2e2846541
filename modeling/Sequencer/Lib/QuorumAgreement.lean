/-
# Agreement from locked quorums

The safety argument of Tendermint-style consensus, stated over what the honest voters sent and
nothing else.  Voters `U` vote in rounds; at most `f` of them (those in `F`) are faulty and may
send anything; a quorum is `q` voters, with `|U| + f < 2q`, so any two quorums share an honest
voter.

A POLKA for `b` in round `r` is a quorum whose honest members all prevoted `b` in `r`; a COMMIT
is a quorum whose honest members all precommitted `b` in `r`.  Three rules about single honest
voters (`Locking`) make commits agree:

* an honest voter prevotes at most one value per round;
* an honest voter precommits `b` in `r` only after a polka for `b` in `r`;
* an honest voter that precommitted `b` in `r` prevotes a value `b'` in a later round `s` only
  after a polka for `b'` in some round between `r` and `s` (its lock, or the valid round of a
  reproposal).

`commits_agree` is then an induction on rounds: from a commit of `b` in `r` on, every polka is
for `b` (`polka_eq_of_commit`).  Nothing here names the protocol it is used for.
-/
import Mathlib.Data.Finset.Card

namespace Sequencer.Quorum

/-! ## 1. Quorum intersection -/

section Intersection

variable {V : Type} [DecidableEq V]

/-- **Two sets of voters whose sizes sum to more than `|U| + f` share an honest voter.** -/
theorem exists_honest_inter {U F A C : Finset V} {f qA qC : Nat} (hA : A ⊆ U) (hC : C ⊆ U)
    (hF : F.card ≤ f) (hqA : qA ≤ A.card) (hqC : qC ≤ C.card) (hsum : U.card + f < qA + qC) :
    ∃ x, x ∈ A ∧ x ∈ C ∧ x ∉ F := by
  have hunion : (A ∪ C).card ≤ U.card := Finset.card_le_card (Finset.union_subset hA hC)
  have hinter := Finset.card_union_add_card_inter A C
  -- more than `f` voters are in both, so not all of them are faulty
  have hbig : F.card < (A ∩ C).card := by omega
  obtain ⟨x, hx, hxF⟩ := Finset.exists_mem_notMem_of_card_lt_card hbig
  obtain ⟨hxA, hxC⟩ := Finset.mem_inter.mp hx
  exact ⟨x, hxA, hxC, hxF⟩

end Intersection

/-! ## 2. Polkas and commits -/

section Agreement

variable {V B : Type} [DecidableEq V]
variable (U F : Finset V) (q : Nat)
variable (prevoted precommitted : V → Nat → B → Prop)

/-- A quorum whose honest members all prevoted `b` in round `r`. -/
def Polka (b : B) (r : Nat) : Prop :=
  ∃ P ⊆ U, q ≤ P.card ∧ ∀ p ∈ P, p ∉ F → prevoted p r b

/-- A quorum whose honest members all precommitted `b` in round `r`. -/
def Commit (b : B) (r : Nat) : Prop :=
  ∃ C ⊆ U, q ≤ C.card ∧ ∀ c ∈ C, c ∉ F → precommitted c r b

/-- The three rules of one honest voter that make commits agree. -/
structure Locking : Prop where
  prevote_unique : ∀ p r b b', p ∉ F → prevoted p r b → prevoted p r b' → b = b'
  polka_of_precommit : ∀ p r b, p ∉ F → precommitted p r b → Polka U F q prevoted b r
  polka_of_prevote_after : ∀ p r b s b', p ∉ F → precommitted p r b → prevoted p s b' → r < s →
    ∃ vr, r ≤ vr ∧ vr < s ∧ Polka U F q prevoted b' vr

variable {U F q prevoted precommitted} {f : Nat}

/-- Two polkas in one round are for one value. -/
theorem Locking.polka_eq (hl : Locking U F q prevoted precommitted) (hF : F.card ≤ f)
    (hq : U.card + f < q + q) {b b' : B} {r : Nat} (h : Polka U F q prevoted b r)
    (h' : Polka U F q prevoted b' r) : b' = b := by
  obtain ⟨P, hPU, hPq, hP⟩ := h
  obtain ⟨P', hP'U, hP'q, hP'⟩ := h'
  obtain ⟨p, hp, hp', hpF⟩ := exists_honest_inter hPU hP'U hF hPq hP'q hq
  exact hl.prevote_unique p r b' b hpF (hP' p hp' hpF) (hP p hp hpF)

/-- A commit has an honest member, whose precommit needed a polka. -/
theorem Locking.polka_of_commit (hl : Locking U F q prevoted precommitted) (hF : F.card ≤ f)
    (hq : U.card + f < q + q) {b : B} {r : Nat} (h : Commit U F q precommitted b r) :
    Polka U F q prevoted b r := by
  obtain ⟨C, hCU, hCq, hC⟩ := h
  obtain ⟨c, hc, -, hcF⟩ := exists_honest_inter hCU hCU hF hCq hCq hq
  exact hl.polka_of_precommit c r b hcF (hC c hc hcF)

/-- **From a commit of `b` in round `r` on, every polka is for `b`.**  By strong induction on the
round of the polka: in round `r` two polkas agree; in a later round the polka shares an honest
voter with the commit, whose prevote needed a polka for the same value in an earlier round that
is not before `r`. -/
theorem Locking.polka_eq_of_commit (hl : Locking U F q prevoted precommitted) (hF : F.card ≤ f)
    (hq : U.card + f < q + q) {b : B} {r : Nat} (hc : Commit U F q precommitted b r) :
    ∀ s, r ≤ s → ∀ b', Polka U F q prevoted b' s → b' = b := by
  intro s
  induction s using Nat.strong_induction_on with
  | _ s ih =>
    intro hrs b' hpolka
    rcases Nat.eq_or_lt_of_le hrs with rfl | hlt
    · exact hl.polka_eq hF hq (hl.polka_of_commit hF hq hc) hpolka
    · obtain ⟨C, hCU, hCq, hC⟩ := hc
      obtain ⟨P, hPU, hPq, hP⟩ := hpolka
      obtain ⟨x, hxC, hxP, hxF⟩ := exists_honest_inter hCU hPU hF hCq hPq hq
      obtain ⟨vr, hrvr, hvrs, hvr⟩ :=
        hl.polka_of_prevote_after x r b s b' hxF (hC x hxC hxF) (hP x hxP hxF) hlt
      exact ih vr hvrs hrvr b' hvr

/-- **Commits agree**, whatever their rounds. -/
theorem Locking.commits_agree (hl : Locking U F q prevoted precommitted) (hF : F.card ≤ f)
    (hq : U.card + f < q + q) {b b' : B} {r r' : Nat} (hc : Commit U F q precommitted b r)
    (hc' : Commit U F q precommitted b' r') : b = b' := by
  rcases le_total r r' with hle | hle
  · exact (hl.polka_eq_of_commit hF hq hc r' hle b' (hl.polka_of_commit hF hq hc')).symm
  · exact hl.polka_eq_of_commit hF hq hc' r hle b (hl.polka_of_commit hF hq hc)

end Agreement

end Sequencer.Quorum
