/-
# Canonical Patricia-Merkle tries

The committer keeps its tries compressed: a set of leaf indices below a node has one such trie at
most (`Shape.IsCanonical.unique`).  It is a leaf at a leaf index, a binary node where the indices
lie below both children, and otherwise one edge down to where they part, whose bottom is no
edge.  Only the shape is fixed this way, not the hashes, so it is stated over `Shape`, a trie
without its hashes and leaves.

A `Trie` whose edges never end in an edge (`Trie.Canonical`) is, where it sits, the canonical trie
of its own leaves (`Trie.isCanonical_shape`).  `Trie.subtreeAt` finds the node a trie has at an
index, which is what an unmodified subtree of a skeleton stands for.
-/
import Sequencer.Patricia.StoredTrie

namespace Sequencer.Patricia

open HeapIndex

/-! ## 1. Shapes and the canonical one -/

/-- The shape of a Patricia-Merkle trie: its nodes, without their hashes and leaves. -/
inductive Shape
  | binary (left right : Shape)
  | edge (pathToBottom : PathToBottom) (bottom : Shape)
  | leaf
  deriving DecidableEq, Repr

namespace Shape

def isEdge : Shape → Bool
  | edge _ _ => true
  | _ => false

/-- `s` is the canonical compressed trie, at index `n`, of the leaf indices `K`. -/
inductive IsCanonical : Shape → Nat → Set Nat → Prop
  /-- one index, on the last level -/
  | leaf {n : Nat} : Nat.size n = 252 → IsCanonical leaf n {n}
  /-- indices below both children -/
  | binary {n : Nat} {left right : Shape} {K₀ K₁ : Set Nat} : Nat.size n < 252 →
      IsCanonical left (2 * n) K₀ → IsCanonical right (2 * n + 1) K₁ →
      IsCanonical (binary left right) n (K₀ ∪ K₁)
  /-- indices below one node further down, where they part -/
  | edge {n : Nat} {pathToBottom : PathToBottom} {bottom : Shape} {K : Set Nat} :
      0 < pathToBottom.length → Nat.size n + pathToBottom.length ≤ 252 → bottom.isEdge = false →
      IsCanonical bottom (pathToBottom.bottomValue n) K →
      IsCanonical (edge pathToBottom bottom) n K

/-! ## 2. The canonical trie is unique -/

variable {s : Shape} {n : Nat} {K : Set Nat}

/-- The indices of a canonical trie are leaves below its root. -/
theorem IsCanonical.mem (h : IsCanonical s n K) (hn : n ≠ 0) {k : Nat} (hk : k ∈ K) :
    IsAncestor n k ∧ Nat.size k = 252 := by
  induction h with
  | leaf hsize =>
    rw [Set.mem_singleton_iff.mp hk]
    exact ⟨IsAncestor.refl _, hsize⟩
  | @binary n left right K₀ K₁ _ _ _ ih₀ ih₁ =>
    rcases hk with hk | hk
    · obtain ⟨ha, hsize⟩ := ih₀ (by omega) hk
      exact ⟨(isAncestor_two_mul_add (b := 0) hn (by decide)).trans ha, hsize⟩
    · obtain ⟨ha, hsize⟩ := ih₁ (by omega) hk
      exact ⟨(isAncestor_two_mul_add hn (by decide)).trans ha, hsize⟩
  | @edge n pathToBottom bottom K _ _ _ _ ih =>
    obtain ⟨ha, hsize⟩ := ih (Trie.bottomValue_ne_zero hn pathToBottom) hk
    exact ⟨(Trie.isAncestor_bottomValue hn pathToBottom).trans ha, hsize⟩

theorem IsCanonical.nonempty (h : IsCanonical s n K) : K.Nonempty := by
  induction h with
  | leaf _ => exact Set.singleton_nonempty _
  | binary _ _ _ ih₀ _ => exact ih₀.mono Set.subset_union_left
  | edge _ _ _ _ ih => exact ih

theorem IsCanonical.congr_keys {K' : Set Nat} (h : IsCanonical s n K) (hK : K = K') :
    IsCanonical s n K' :=
  hK ▸ h

/-- Below a binary node, the indices below the left child are those of the left part. -/
theorem inter_below_left {left right : Shape} {K₀ K₁ : Set Nat} (hn : n ≠ 0)
    (h₀ : IsCanonical left (2 * n) K₀) (h₁ : IsCanonical right (2 * n + 1) K₁) :
    (K₀ ∪ K₁) ∩ {k | IsAncestor (2 * n) k} = K₀ := by
  ext k
  constructor
  · rintro ⟨hk | hk, hbelow⟩
    · exact hk
    · -- an index of the right part is not below the left child
      have ha := (h₁.mem (by omega) hk).1
      exact absurd (by simpa using hbelow) (Trie.not_isAncestor_sibling (b := 1) hn (by decide) ha)
  · intro hk
    exact ⟨.inl hk, (h₀.mem (by omega) hk).1⟩

theorem inter_below_right {left right : Shape} {K₀ K₁ : Set Nat} (hn : n ≠ 0)
    (h₀ : IsCanonical left (2 * n) K₀) (h₁ : IsCanonical right (2 * n + 1) K₁) :
    (K₀ ∪ K₁) ∩ {k | IsAncestor (2 * n + 1) k} = K₁ := by
  ext k
  constructor
  · rintro ⟨hk | hk, hbelow⟩
    · have ha := (h₀.mem (by omega) hk).1
      exact absurd hbelow
        (Trie.not_isAncestor_sibling (b := 0) hn (by decide) (by simpa using ha))
    · exact hk
  · intro hk
    exact ⟨.inr hk, (h₁.mem (by omega) hk).1⟩

/-- **No node strictly below the root of a canonical binary node or leaf holds all its
indices.** -/
theorem IsCanonical.not_all_below (h : IsCanonical s n K) (hs : s.isEdge = false) (hn : n ≠ 0)
    {d : Nat} (hd : IsAncestor n d) (hlt : Nat.size n < Nat.size d) :
    ¬ ∀ k ∈ K, IsAncestor d k := by
  intro hall
  cases h with
  | leaf hsize =>
    -- nothing deeper than a leaf is above it
    have := (hall n rfl).1
    omega
  | @binary _ _ _ K₀ K₁ _ h₀ h₁ =>
    -- the indices below the two children cannot all be below one of them
    obtain ⟨k₀, hk₀⟩ := h₀.nonempty
    obtain ⟨k₁, hk₁⟩ := h₁.nonempty
    have ha₀ := (h₀.mem (by omega) hk₀).1
    have ha₁ := (h₁.mem (by omega) hk₁).1
    rcases hd.child_of_size_lt hlt with hc | hc
    · exact Trie.not_isAncestor_sibling (b := 1) hn (by decide) ha₁
        (by simpa using hc.trans (hall k₁ (.inr hk₁)))
    · exact Trie.not_isAncestor_sibling (b := 0) hn (by decide) (by simpa using ha₀)
        (hc.trans (hall k₀ (.inl hk₀)))
  | edge => cases hs

/-- Two edges from one node to canonical bottoms over the same indices are one edge. -/
theorem IsCanonical.edge_unique {p p' : PathToBottom} {b b' : Shape} (hn : n ≠ 0)
    (hb : b.isEdge = false) (h : IsCanonical b (p.bottomValue n) K)
    (hb' : b'.isEdge = false) (h' : IsCanonical b' (p'.bottomValue n) K) :
    p = p' := by
  obtain ⟨k, hk⟩ := h.nonempty
  have hbv := Trie.bottomValue_ne_zero hn p
  have hbv' := Trie.bottomValue_ne_zero hn p'
  have ha := (h.mem hbv hk).1
  have ha' := (h'.mem hbv' hk).1
  rcases lt_trichotomy (Nat.size (p.bottomValue n)) (Nat.size (p'.bottomValue n)) with
    hlt | heq | hgt
  · -- the first bottom would hold all the indices strictly above the second
    exact absurd (fun k hk => (h'.mem hbv' hk).1) (h.not_all_below hb hbv (ha.of_size_le ha' hlt.le) hlt)
  · have hval := ha.eq_of_common ha' heq
    rw [Trie.size_bottomValue hn, Trie.size_bottomValue hn] at heq
    have hlength : p.length = p'.length := by omega
    unfold PathToBottom.bottomValue at hval
    rw [hlength] at hval
    exact PathToBottom.ext (by omega) hlength
  · exact absurd (fun k hk => (h.mem hbv hk).1) (h'.not_all_below hb' hbv' (ha'.of_size_le ha hgt.le) hgt)

/-- **The canonical trie of a set of leaf indices is unique.** -/
theorem IsCanonical.unique (h : IsCanonical s n K) (hn : n ≠ 0) :
    ∀ {s' : Shape} {K' : Set Nat}, IsCanonical s' n K' → K = K' → s = s' := by
  induction h with
  | leaf hsize =>
    intro s' K' h' hK
    cases h' with
    | leaf _ => rfl
    | binary hlt _ _ => omega
    | edge hpos hlength _ _ => omega
  | @binary n left right K₀ K₁ hlt h₀ h₁ ih₀ ih₁ =>
    intro s' K' h' hK
    cases h' with
    | leaf hsize => omega
    | binary _ h₀' h₁' =>
      -- each side holds the indices below its child
      have hleft : K₀ = _ := (inter_below_left hn h₀ h₁).symm.trans
        (hK ▸ inter_below_left hn h₀' h₁')
      have hright : K₁ = _ := (inter_below_right hn h₀ h₁).symm.trans
        (hK ▸ inter_below_right hn h₀' h₁')
      rw [ih₀ (by omega) h₀' hleft, ih₁ (by omega) h₁' hright]
    | @edge _ p bottom _ _ _ _ hbottom =>
      exfalso
      have hbv := Trie.bottomValue_ne_zero hn p
      refine (IsCanonical.binary hlt h₀ h₁).not_all_below rfl hn
        (Trie.isAncestor_bottomValue hn p) (by rw [Trie.size_bottomValue hn]; omega) ?_
      intro k hk
      exact (hbottom.mem hbv (hK ▸ hk)).1
  | @edge n p bottom K hpos _ hb hbottom ih =>
    intro s' K' h' hK
    subst hK
    cases h' with
    | leaf hsize => omega
    | binary hlt h₀ h₁ =>
      exfalso
      have hbv := Trie.bottomValue_ne_zero hn p
      refine (IsCanonical.binary hlt h₀ h₁).not_all_below rfl hn
        (Trie.isAncestor_bottomValue hn p) (by rw [Trie.size_bottomValue hn]; omega) ?_
      intro k hk
      exact (hbottom.mem hbv hk).1
    | edge _ _ hb' hbottom' =>
      obtain rfl := IsCanonical.edge_unique hn hb hbottom hb' hbottom'
      rw [ih (Trie.bottomValue_ne_zero hn p) hbottom' rfl]

end Shape

/-! ## 3. Tries in canonical form -/

namespace Trie

variable {L : Type}

/-- The shape of a trie. -/
def shape : Trie L → Shape
  | binary _ left right => .binary left.shape right.shape
  | edge _ pathToBottom bottom => .edge pathToBottom bottom.shape
  | leaf _ _ => .leaf

def isEdge : Trie L → Bool
  | edge _ _ _ => true
  | _ => false

@[simp] theorem isEdge_shape (t : Trie L) : t.shape.isEdge = t.isEdge := by
  cases t <;> rfl

/-- No edge of the trie ends in an edge: the tries the committer writes. -/
def Canonical : Trie L → Prop
  | binary _ left right => left.Canonical ∧ right.Canonical
  | edge _ _ bottom => bottom.isEdge = false ∧ bottom.Canonical
  | leaf _ _ => True

/-- The indices at which the trie at index `n` holds a leaf. -/
def keys (t : Trie L) (n : Nat) : Set Nat := {i | (t.leafAt n i).isSome}

theorem keys_binary (hash : Felt) (left right : Trie L) (n : Nat) :
    (binary hash left right).keys n = left.keys (2 * n) ∪ right.keys (2 * n + 1) := by
  ext i
  simp [keys, leafAt, Option.isSome_or]

theorem keys_edge (hash : Felt) (pathToBottom : PathToBottom) (bottom : Trie L) (n : Nat) :
    (edge hash pathToBottom bottom).keys n = bottom.keys (pathToBottom.bottomValue n) :=
  rfl

theorem keys_leaf (hash : Felt) (data : L) (n : Nat) : (leaf hash data).keys n = {n} := by
  ext i
  simp only [keys, leafAt, Set.mem_ofPred_eq, Set.mem_singleton_iff]
  split <;> simp_all

/-- **A canonical trie in place is the canonical trie of its leaves.** -/
theorem isCanonical_shape {t : Trie L} {n : Nat} (hwf : t.WF n) (hc : t.Canonical) :
    t.shape.IsCanonical n (t.keys n) := by
  induction t generalizing n with
  | binary hash left right ihl ihr =>
    obtain ⟨hsize, hl, hr⟩ := hwf
    rw [keys_binary]
    exact .binary hsize (ihl hl hc.1) (ihr hr hc.2)
  | edge hash pathToBottom bottom ih =>
    obtain ⟨hpos, hlength, hbottom⟩ := hwf
    exact .edge hpos hlength (by rw [isEdge_shape]; exact hc.1) (ih hbottom hc.2)
  | leaf hash data =>
    rw [keys_leaf]
    exact .leaf hwf

/-- The node the trie at index `n` has at index `m`. -/
def subtreeAt : Trie L → Nat → Nat → Option (Trie L)
  | t@(binary _ left right), n, m =>
    if m = n then some t else (left.subtreeAt (2 * n) m).or (right.subtreeAt (2 * n + 1) m)
  | t@(edge _ pathToBottom bottom), n, m =>
    if m = n then some t else bottom.subtreeAt (pathToBottom.bottomValue n) m
  | t@(leaf _ _), n, m => if m = n then some t else none

@[simp] theorem subtreeAt_self (t : Trie L) (n : Nat) : t.subtreeAt n n = some t := by
  cases t <;> simp [subtreeAt]

/-- A trie has no node outside the subtree of its root. -/
theorem subtreeAt_of_not_isAncestor (t : Trie L) {n m : Nat} (hn : n ≠ 0)
    (hm : ¬ IsAncestor n m) : t.subtreeAt n m = none := by
  induction t generalizing n with
  | binary _ left right ihl ihr =>
    have hne : m ≠ n := fun h => hm (h ▸ IsAncestor.refl _)
    have hl := ihl (n := 2 * n) (by omega)
      fun h => hm ((isAncestor_two_mul_add (b := 0) hn (by decide)).trans h)
    have hr := ihr (n := 2 * n + 1) (by omega)
      fun h => hm ((isAncestor_two_mul_add hn (by decide)).trans h)
    rw [subtreeAt, if_neg hne, hl, hr]
    rfl
  | edge _ pathToBottom bottom ih =>
    have hne : m ≠ n := fun h => hm (h ▸ IsAncestor.refl _)
    rw [subtreeAt, if_neg hne]
    exact ih (bottomValue_ne_zero hn pathToBottom)
      fun h => hm ((isAncestor_bottomValue hn pathToBottom).trans h)
  | leaf =>
    have hne : m ≠ n := fun h => hm (h ▸ IsAncestor.refl _)
    rw [subtreeAt, if_neg hne]

/-- Below the left child, a binary node has what its left child has. -/
theorem subtreeAt_binary_of_left {hash : Felt} {left right : Trie L} {n m : Nat} (hn : n ≠ 0)
    (hm : IsAncestor (2 * n) m) :
    (binary hash left right).subtreeAt n m = left.subtreeAt (2 * n) m := by
  have hne : m ≠ n := by
    rintro rfl
    have hsize : Nat.size (2 * m) = Nat.size m + 1 := size_two_mul_add (b := 0) hn (by decide)
    have := hm.1
    omega
  have hright := right.subtreeAt_of_not_isAncestor (n := 2 * n + 1) (by omega)
    (not_isAncestor_sibling (b := 0) hn (by decide) hm)
  rw [subtreeAt, if_neg hne, hright, Option.or_none]

theorem subtreeAt_binary_of_right {hash : Felt} {left right : Trie L} {n m : Nat} (hn : n ≠ 0)
    (hm : IsAncestor (2 * n + 1) m) :
    (binary hash left right).subtreeAt n m = right.subtreeAt (2 * n + 1) m := by
  have hne : m ≠ n := by
    rintro rfl
    have hsize := size_two_mul_add (b := 1) hn (by decide)
    have := hm.1
    omega
  have hleft := left.subtreeAt_of_not_isAncestor (n := 2 * n) (by omega)
    (not_isAncestor_sibling (b := 1) hn (by decide) hm)
  rw [subtreeAt, if_neg hne, hleft, Option.none_or]

/-- Below its bottom, an edge has what its bottom has. -/
theorem subtreeAt_edge_of_ne {hash : Felt} {pathToBottom : PathToBottom} {bottom : Trie L}
    {n m : Nat} (hm : m ≠ n) :
    (edge hash pathToBottom bottom).subtreeAt n m =
      bottom.subtreeAt (pathToBottom.bottomValue n) m := by
  rw [subtreeAt, if_neg hm]

end Trie

end Sequencer.Patricia
