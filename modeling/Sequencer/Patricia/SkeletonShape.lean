/-
# What an updated skeleton spells

An updated skeleton is a map from indices to nodes.  Read from an index down, its nodes spell a
shape (`Expands`): a binary node the shapes at its two children, an edge the shape at its bottom,
a leaf a leaf, and an unmodified subtree the shape of the node the original trie has at its index.
`Reaches` follows the same steps, to say which entries lie on the way down from an index.

A call of `create_tree_helper.rs` returns what the node at its index becomes, and its caller
writes it.  `Realizes` says what the call has done by then: a deleted subtree leaves no entry below
its index; any other node, once written, makes the map spell from the index the canonical trie of
the leaves left below it (`Spelled`), with every entry below the index on the way down.  The calls
only add binary nodes and edges, strictly below their index, where there was none (`Grows`).

The three functions that build a node from its children have their specs here, stated through
`Realizes` of the children; the recursions that call them are in `Sequencer.Patricia.UpdatedShape`.
-/
import Sequencer.Patricia.SkeletonPaths
import Sequencer.Patricia.CanonicalTrie

namespace Sequencer.Patricia

open HeapIndex NodeIndex UpdatedSkeletonTreeImpl

variable {L : Type}

/-! ## 1. Spelling a shape -/

/-- The node the original trie has at index `m`. -/
def subtreeOf (T : Option (Trie L)) (m : Nat) : Option (Trie L) :=
  T.bind fun t => t.subtreeAt root.val m

/-- The nodes the recursion writes; the others are in the map from the bottom layer on. -/
def UpdatedSkeletonNode.isInner : UpdatedSkeletonNode → Bool
  | .binary | .edge _ => true
  | .unmodifiedSubTree _ | .leaf => false

/-- The shape the skeleton `U` spells from index `m`.  An unmodified subtree stands for the node
the original trie `T` has at its index, which carries its hash. -/
inductive Expands (T : Option (Trie L)) (U : UpdatedSkeletonNodeMap) : NodeIndex → Shape → Prop
  | binary {m left right : NodeIndex} {sl sr : Shape} : U.get m = some .binary →
      left.val = 2 * m.val → right.val = 2 * m.val + 1 →
      Expands T U left sl → Expands T U right sr → Expands T U m (.binary sl sr)
  | edge {m bottom : NodeIndex} {pathToBottom : PathToBottom} {s : Shape} :
      U.get m = some (.edge pathToBottom) → bottom.val = pathToBottom.bottomValue m.val →
      Expands T U bottom s → Expands T U m (.edge pathToBottom s)
  | leaf {m : NodeIndex} : U.get m = some .leaf → Expands T U m .leaf
  | unmodifiedSubTree {m : NodeIndex} {hash : Felt} {t : Trie L} :
      U.get m = some (.unmodifiedSubTree hash) → subtreeOf T m.val = some t → t.hash = hash →
      Expands T U m t.shape

/-- The entries of `U` on the way down from index `m`. -/
inductive Reaches (U : UpdatedSkeletonNodeMap) : NodeIndex → NodeIndex → Prop
  | refl (m : NodeIndex) : Reaches U m m
  | binary {m c k : NodeIndex} : U.get m = some .binary →
      c.val = 2 * m.val ∨ c.val = 2 * m.val + 1 → Reaches U c k → Reaches U m k
  | edge {m bottom k : NodeIndex} {pathToBottom : PathToBottom} :
      U.get m = some (.edge pathToBottom) → bottom.val = pathToBottom.bottomValue m.val →
      Reaches U bottom k → Reaches U m k

/-- Every unmodified subtree of `U` stands for a node of the original trie, no edge, with the hash
it carries. -/
def UnmodifiedOk (T : Option (Trie L)) (U : UpdatedSkeletonNodeMap) : Prop :=
  ∀ k hash, U.get k = some (.unmodifiedSubTree hash) →
    ∃ t, subtreeOf T k.val = some t ∧ t.hash = hash ∧ t.isEdge = false

/-! ## 2. Indices below a node -/

theorem root_le_of_isAncestor {m c : NodeIndex} (hm : root ≤ m) (h : IsAncestor m.val c.val) :
    root ≤ c :=
  Nat.size_pos.mp (lt_of_lt_of_le (Nat.size_pos.mpr hm) h.1)

theorem isAncestor_child {m c : NodeIndex} (hm : root ≤ m)
    (hc : c.val = 2 * m.val ∨ c.val = 2 * m.val + 1) : IsAncestor m.val c.val := by
  have hn : m.val ≠ 0 := Nat.pos_iff_ne_zero.mp hm
  rcases hc with hc | hc <;> rw [hc]
  · exact isAncestor_two_mul_add (b := 0) hn (by decide)
  · exact isAncestor_two_mul_add hn (by decide)

theorem size_child {m c : NodeIndex} (hm : root ≤ m)
    (hc : c.val = 2 * m.val ∨ c.val = 2 * m.val + 1) : Nat.size c.val = Nat.size m.val + 1 := by
  have hn : m.val ≠ 0 := Nat.pos_iff_ne_zero.mp hm
  rcases hc with hc | hc <;> rw [hc]
  · exact size_two_mul_add (b := 0) hn (by decide)
  · exact size_two_mul_add hn (by decide)

theorem isAncestor_bottom {m b : NodeIndex} {p : PathToBottom} (hm : root ≤ m)
    (hb : b.val = p.bottomValue m.val) : IsAncestor m.val b.val :=
  hb ▸ Trie.isAncestor_bottomValue (Nat.pos_iff_ne_zero.mp hm) p

theorem size_bottom {m b : NodeIndex} {p : PathToBottom} (hm : root ≤ m)
    (hb : b.val = p.bottomValue m.val) : Nat.size b.val = Nat.size m.val + p.length :=
  hb ▸ Trie.size_bottomValue (Nat.pos_iff_ne_zero.mp hm) p

/-- Nothing below a node is a node above it. -/
theorem ne_of_isAncestor_of_size_lt {n c k : NodeIndex} (hck : IsAncestor c.val k.val)
    (hlt : Nat.size n.val < Nat.size c.val) : k ≠ n := by
  rintro rfl
  have := hck.1
  omega

/-- Below one child, nothing is below the other. -/
theorem not_isAncestor_of_sibling {m c c' k : NodeIndex} (hm : root ≤ m)
    (hc : c.val = 2 * m.val ∨ c.val = 2 * m.val + 1)
    (hc' : c'.val = 2 * m.val ∨ c'.val = 2 * m.val + 1) (hne : c ≠ c')
    (hk : IsAncestor c.val k.val) : ¬ IsAncestor c'.val k.val := by
  have hn : m.val ≠ 0 := Nat.pos_iff_ne_zero.mp hm
  have hval : c.val ≠ c'.val := fun h => hne (NodeIndex.ext h)
  rcases hc with hc | hc <;> rcases hc' with hc' | hc' <;> rw [hc] at hk <;> rw [hc']
  · omega
  · exact Trie.not_isAncestor_sibling (b := 0) hn (by decide) hk
  · exact Trie.not_isAncestor_sibling (b := 1) hn (by decide) hk
  · omega

/-- A node strictly below a binary node is below one of its children. -/
theorem isAncestor_child_of_ne {m k : NodeIndex} (hmk : IsAncestor m.val k.val)
    (hne : k ≠ m) : ∃ c : NodeIndex, (c.val = 2 * m.val ∨ c.val = 2 * m.val + 1) ∧
      IsAncestor c.val k.val := by
  have hlt := hmk.size_lt_of_ne fun h => hne (NodeIndex.ext h)
  have hbound : ∀ b < 2, IsAncestor (2 * m.val + b) k.val → 2 * m.val + b ≤ NodeIndex.max := by
    intro b _ hb
    have := hb.1
    have := size_le k
    exact le_max_of_lt (Nat.lt_of_lt_of_le (Nat.lt_size_self _)
      (Nat.pow_le_pow_right (by decide) (by omega)))
  rcases hmk.child_of_size_lt hlt with h | h
  · exact ⟨⟨2 * m.val, hbound 0 (by decide) h⟩, .inl rfl, h⟩
  · exact ⟨⟨2 * m.val + 1, hbound 1 (by decide) h⟩, .inr rfl, h⟩

/-! ## 3. Frame: what is below a node is all that counts -/

section Frame

variable {T : Option (Trie L)} {U U' : UpdatedSkeletonNodeMap}

/-- The shape from `m` depends only on the entries below `m`. -/
theorem Expands.congr {m : NodeIndex} {s : Shape} (h : Expands T U m s) (hm : root ≤ m)
    (hU : ∀ k : NodeIndex, IsAncestor m.val k.val → U'.get k = U.get k) : Expands T U' m s := by
  induction h with
  | binary hget hl hr _ _ ihl ihr =>
    have hal := isAncestor_child hm (.inl hl)
    have har := isAncestor_child hm (.inr hr)
    exact .binary ((hU _ (IsAncestor.refl _)).trans hget) hl hr
      (ihl (root_le_of_isAncestor hm hal) fun k hk => hU k (hal.trans hk))
      (ihr (root_le_of_isAncestor hm har) fun k hk => hU k (har.trans hk))
  | edge hget hb _ ih =>
    have hab := isAncestor_bottom hm hb
    exact .edge ((hU _ (IsAncestor.refl _)).trans hget) hb
      (ih (root_le_of_isAncestor hm hab) fun k hk => hU k (hab.trans hk))
  | leaf hget => exact .leaf ((hU _ (IsAncestor.refl _)).trans hget)
  | unmodifiedSubTree hget ht hhash =>
    exact .unmodifiedSubTree ((hU _ (IsAncestor.refl _)).trans hget) ht hhash

theorem Reaches.congr {m k : NodeIndex} (h : Reaches U m k) (hm : root ≤ m)
    (hU : ∀ j : NodeIndex, IsAncestor m.val j.val → U'.get j = U.get j) : Reaches U' m k := by
  induction h with
  | refl => exact .refl _
  | binary hget hc _ ih =>
    have hac := isAncestor_child hm hc
    exact .binary ((hU _ (IsAncestor.refl _)).trans hget) hc
      (ih (root_le_of_isAncestor hm hac) fun j hj => hU j (hac.trans hj))
  | edge hget hb _ ih =>
    have hab := isAncestor_bottom hm hb
    exact .edge ((hU _ (IsAncestor.refl _)).trans hget) hb
      (ih (root_le_of_isAncestor hm hab) fun j hj => hU j (hab.trans hj))

/-- The way down from `m` stays below `m`. -/
theorem Reaches.isAncestor {m k : NodeIndex} (h : Reaches U m k) (hm : root ≤ m) :
    IsAncestor m.val k.val := by
  induction h with
  | refl => exact IsAncestor.refl _
  | binary _ hc _ ih =>
    have hac := isAncestor_child hm hc
    exact hac.trans (ih (root_le_of_isAncestor hm hac))
  | edge _ hb _ ih =>
    have hab := isAncestor_bottom hm hb
    exact hab.trans (ih (root_le_of_isAncestor hm hab))

/-- Past an edge, the way down goes through its bottom. -/
theorem Reaches.of_edge {m bottom k : NodeIndex} {q : PathToBottom} (h : Reaches U m k)
    (hne : k ≠ m) (hget : U.get m = some (.edge q)) (hb : bottom.val = q.bottomValue m.val) :
    Reaches U bottom k := by
  cases h with
  | refl => exact absurd rfl hne
  | binary hget' => simp [hget] at hget'
  | edge hget' hb' hreach =>
    rw [hget, Option.some.injEq, UpdatedSkeletonNode.edge.injEq] at hget'
    subst hget'
    rwa [show bottom = _ from NodeIndex.ext (hb.trans hb'.symm)]

theorem Expands.of_edge {m : NodeIndex} {s : Shape} {q : PathToBottom} (h : Expands T U m s)
    (hget : U.get m = some (.edge q)) :
    ∃ (bottom : NodeIndex) (s' : Shape), bottom.val = q.bottomValue m.val ∧ s = .edge q s' ∧
      Expands T U bottom s' := by
  cases h with
  | binary hget' => simp [hget] at hget'
  | edge hget' hb hexp =>
    rw [hget, Option.some.injEq, UpdatedSkeletonNode.edge.injEq] at hget'
    subst hget'
    exact ⟨_, _, hb, rfl, hexp⟩
  | leaf hget' => simp [hget] at hget'
  | unmodifiedSubTree hget' => simp [hget] at hget'

/-- A node that is no edge spells no edge. -/
theorem Expands.isEdge_eq_false {m : NodeIndex} {s : Shape} (h : Expands T U m s)
    (hok : UnmodifiedOk T U) (hget : ∀ q, U.get m ≠ some (.edge q)) : s.isEdge = false := by
  cases h with
  | binary => rfl
  | edge hget' => exact absurd hget' (hget _)
  | leaf => rfl
  | @unmodifiedSubTree _ _ t hget' ht _ =>
    obtain ⟨t', ht', -, hedge⟩ := hok _ _ hget'
    rw [ht, Option.some.injEq] at ht'
    rw [Trie.isEdge_shape, ht', hedge]

theorem UnmodifiedOk.congr (hok : UnmodifiedOk T U) (hU : ∀ k, U'.get k = U.get k) :
    UnmodifiedOk T U' :=
  fun k hash hget => hok k hash ((hU k).symm.trans hget)

end Frame

/-! ## 4. What a call adds to the map -/

section Growth

variable {n c : NodeIndex} {U U' U'' : UpdatedSkeletonNodeMap}

/-- `U'` differs from `U` strictly below `n` only. -/
def ChangesBelow {ν : Type} (n : NodeIndex) (U U' : HashMap NodeIndex ν) : Prop :=
  ∀ k, U'.get k ≠ U.get k → IsAncestor n.val k.val ∧ k ≠ n

section ChangesBelow

variable {ν : Type} {V V' V'' : HashMap NodeIndex ν}

theorem ChangesBelow.refl (n : NodeIndex) (V : HashMap NodeIndex ν) : ChangesBelow n V V :=
  fun _ hk => absurd rfl hk

theorem ChangesBelow.get_eq (h : ChangesBelow n V V') {k : NodeIndex}
    (hk : ¬ IsAncestor n.val k.val ∨ k = n) : V'.get k = V.get k := by
  by_contra hne
  obtain ⟨hbelow, hkn⟩ := h k hne
  rcases hk with hk | hk
  · exact hk hbelow
  · exact hkn hk

theorem ChangesBelow.trans (h₁ : ChangesBelow n V V') (h₂ : ChangesBelow n V' V'') :
    ChangesBelow n V V'' := by
  intro k hk
  by_cases h₁k : V'.get k = V.get k
  · exact h₂ k (h₁k ▸ hk)
  · exact h₁ k h₁k

/-- What changes below a node changes below any node above it. -/
theorem ChangesBelow.mono (h : ChangesBelow c V V') (hnc : IsAncestor n.val c.val) :
    ChangesBelow n V V' := by
  intro k hk
  obtain ⟨hck, hkc⟩ := h k hk
  refine ⟨hnc.trans hck, ?_⟩
  rintro rfl
  exact hkc (NodeIndex.ext (hck.eq_of_size_eq (le_antisymm hck.1 hnc.1)).symm)

end ChangesBelow

/-- `U'` is `U` with inner nodes put strictly below `n`, where `U` had none. -/
structure Grows (n : NodeIndex) (U U' : UpdatedSkeletonNodeMap) : Prop where
  below : ChangesBelow n U U'
  fresh : ∀ k, U'.get k ≠ U.get k →
    U.get k = none ∧ ∃ node, U'.get k = some node ∧ node.isInner = true

theorem Grows.of_get_eq (h : ∀ k, U'.get k = U.get k) : Grows n U U' :=
  ⟨fun k hk => absurd (h k) hk, fun k hk => absurd (h k) hk⟩

theorem Grows.refl (n : NodeIndex) (U : UpdatedSkeletonNodeMap) : Grows n U U :=
  .of_get_eq fun _ => rfl

theorem Grows.get_eq (h : Grows n U U') {k : NodeIndex} (hk : ¬ IsAncestor n.val k.val ∨ k = n) :
    U'.get k = U.get k :=
  h.below.get_eq hk

theorem Grows.trans (h₁ : Grows n U U') (h₂ : Grows n U' U'') : Grows n U U'' := by
  refine ⟨h₁.below.trans h₂.below, fun k hk => ?_⟩
  by_cases h₁k : U'.get k = U.get k
  · rw [← h₁k]
    exact h₂.fresh k (h₁k ▸ hk)
  · -- an entry written once is not written again
    obtain ⟨hnone, node, hnode, hinner⟩ := h₁.fresh k h₁k
    have h₂k : U''.get k = U'.get k := by
      by_contra h₂k
      rw [(h₂.fresh k h₂k).1] at hnode
      cases hnode
    exact ⟨hnone, node, h₂k.trans hnode, hinner⟩

/-- What grows below a node grows below any node above it. -/
theorem Grows.mono (h : Grows c U U') (hnc : IsAncestor n.val c.val) : Grows n U U' :=
  ⟨h.below.mono hnc, h.fresh⟩

theorem UnmodifiedOk.grows {T : Option (Trie L)} (hok : UnmodifiedOk T U) (h : Grows n U U') :
    UnmodifiedOk T U' := by
  intro k hash hget
  by_cases hk : U'.get k = U.get k
  · exact hok k hash (hk ▸ hget)
  · obtain ⟨-, node, hnode, hinner⟩ := h.fresh k hk
    rw [hget, Option.some.injEq] at hnode
    subst hnode
    cases hinner

/-- `U'` is `U` with `node` written at `c`: there already, or an inner node put where there was
none. -/
structure Writes (U : UpdatedSkeletonNodeMap) (c : NodeIndex) (node : UpdatedSkeletonNode)
    (U' : UpdatedSkeletonNodeMap) : Prop where
  get_eq : ∀ k, U'.get k = (U.insert c node).2.get k
  fresh : U.get c = some node ∨ U.get c = none ∧ node.isInner = true

theorem Writes.of_get {node : UpdatedSkeletonNode} (h : U.get c = some node) : Writes U c node U := by
  refine ⟨fun k => ?_, .inl h⟩
  rw [HashMap.get_insert]
  split
  · subst_vars
    exact h
  · rfl

theorem Writes.insert {node : UpdatedSkeletonNode} (h : U.get c = none) (hinner : node.isInner = true) :
    Writes U c node (U.insert c node).2 :=
  ⟨fun _ => rfl, .inr ⟨h, hinner⟩⟩

theorem Writes.get_of_ne {node : UpdatedSkeletonNode} (h : Writes U c node U') {k : NodeIndex}
    (hk : k ≠ c) : U'.get k = U.get k := by
  rw [h.get_eq, HashMap.get_insert, if_neg hk]

theorem Writes.unmodifiedOk {T : Option (Trie L)} {node : UpdatedSkeletonNode}
    (h : Writes U c node U') (hok : UnmodifiedOk T U) : UnmodifiedOk T (U.insert c node).2 := by
  intro k hash hget
  rw [HashMap.get_insert] at hget
  split at hget
  · rename_i hk
    subst hk
    rcases h.fresh with hfresh | hfresh
    · exact hok k hash (hfresh.trans hget)
    · rw [Option.some.inj hget] at hfresh
      simp [UpdatedSkeletonNode.isInner] at hfresh
  · exact hok k hash hget

theorem Writes.grows {node : UpdatedSkeletonNode} (h : Writes U c node U')
    (hnc : IsAncestor n.val c.val) (hcn : c ≠ n) : Grows n U U' := by
  -- only the entry at `c` can change
  have hchanged : ∀ k, U'.get k ≠ U.get k → k = c := by
    intro k hk
    by_contra hkc
    exact hk (h.get_of_ne hkc)
  refine ⟨fun k hk => ?_, fun k hk => ?_⟩
  · rw [hchanged k hk]
    exact ⟨hnc, hcn⟩
  · obtain rfl := hchanged k hk
    have hget : U'.get k = some node := by rw [h.get_eq, HashMap.get_insert, if_pos rfl]
    rcases h.fresh with hfresh | hfresh
    · exact absurd (hget.trans hfresh.symm) hk
    · exact ⟨hfresh.1, node, hget, hfresh.2⟩

end Growth

/-! ## 5. What a call leaves behind -/

section Realizes

variable {T : Option (Trie L)}

/-- From `c` down, the skeleton `W` spells the shape `s`, the canonical trie of `K`, and every
entry of `W` below `c` is on the way down from `c`. -/
structure Spelled (T : Option (Trie L)) (W : UpdatedSkeletonNodeMap) (c : NodeIndex) (K : Set Nat)
    (s : Shape) : Prop where
  expands : Expands T W c s
  canonical : s.IsCanonical c.val K
  reaches : ∀ k : NodeIndex, IsAncestor c.val k.val → (W.get k).isSome → Reaches W c k

/-- With `node` written at `c`, the skeleton spells from `c` the canonical trie of `K`. -/
def Spells (T : Option (Trie L)) (U : UpdatedSkeletonNodeMap) (c : NodeIndex) (K : Set Nat)
    (node : UpdatedSkeletonNode) : Prop :=
  ∃ s, Spelled T (U.insert c node).2 c K s

/-- What a call at `n` has done when it returns what the node at `n` becomes, `K` being the leaves
left below `n`: a deleted subtree leaves no entry below `n`; a leaf and an unmodified subtree are
in the map, a node of an original kind is not yet, and once written each spells the canonical
trie of `K`. -/
def Realizes (T : Option (Trie L)) (U : UpdatedSkeletonNodeMap) (n : NodeIndex) (K : Set Nat) :
    TempSkeletonNode → Prop
  | .empty => K = ∅ ∧ ∀ k : NodeIndex, IsAncestor n.val k.val → U.get k = none
  | .leaf => U.get n = some .leaf ∧ Spells T U n K .leaf
  | .original .binary => U.get n = none ∧ Spells T U n K .binary
  | .original (.edge pathToBottom) => U.get n = none ∧ Spells T U n K (.edge pathToBottom)
  | .original (.unmodifiedSubTree hash) =>
    U.get n = some (.unmodifiedSubTree hash) ∧ Spells T U n K (.unmodifiedSubTree hash)

variable {U U' W : UpdatedSkeletonNodeMap} {n c : NodeIndex} {K : Set Nat} {s : Shape}

theorem Spelled.congr (h : Spelled T W c K s) (hc : root ≤ c)
    (hW : ∀ k : NodeIndex, IsAncestor c.val k.val → U.get k = W.get k) : Spelled T U c K s := by
  refine ⟨h.expands.congr hc hW, h.canonical, fun k hk hsome => ?_⟩
  rw [hW k hk] at hsome
  exact (h.reaches k hk hsome).congr hc hW

theorem Spells.congr {node : UpdatedSkeletonNode} (h : Spells T U c K node) (hc : root ≤ c)
    (hU : ∀ k : NodeIndex, IsAncestor c.val k.val → U'.get k = U.get k) : Spells T U' c K node := by
  obtain ⟨s, hs⟩ := h
  refine ⟨s, hs.congr hc fun k hk => ?_⟩
  rw [HashMap.get_insert, HashMap.get_insert, hU k hk]

theorem Realizes.congr {r : TempSkeletonNode} (h : Realizes T U n K r) (hn : root ≤ n)
    (hU : ∀ k : NodeIndex, IsAncestor n.val k.val → U'.get k = U.get k) : Realizes T U' n K r := by
  have hself := hU n (IsAncestor.refl _)
  cases r with
  | empty => exact ⟨h.1, fun k hk => (hU k hk).trans (h.2 k hk)⟩
  | leaf => exact ⟨hself.trans h.1, h.2.congr hn hU⟩
  | original node =>
    cases node with
    | binary => exact ⟨hself.trans h.1, h.2.congr hn hU⟩
    | edge => exact ⟨hself.trans h.1, h.2.congr hn hU⟩
    | unmodifiedSubTree => exact ⟨hself.trans h.1, h.2.congr hn hU⟩

/-- A node that is not deleted has leaves below it. -/
theorem Realizes.nonempty {r : TempSkeletonNode} (h : Realizes T U n K r) (hr : r ≠ .empty) :
    K.Nonempty := by
  have hspells : ∀ {node}, Spells T U n K node → K.Nonempty := fun ⟨_, hs⟩ => hs.canonical.nonempty
  cases r with
  | empty => exact absurd rfl hr
  | leaf => exact hspells h.2
  | original node =>
    cases node with
    | binary => exact hspells h.2
    | edge => exact hspells h.2
    | unmodifiedSubTree => exact hspells h.2

/-- Below an edge that `W` spells, `W` spells the rest from its bottom. -/
theorem Spelled.of_edge {b bottom : NodeIndex} {q : PathToBottom} {s' : Shape}
    (h : Spelled T W b K (.edge q s')) (hb : root ≤ b) (hget : W.get b = some (.edge q))
    (hbottom : bottom.val = q.bottomValue b.val) (hexp : Expands T W bottom s')
    (hcan : s'.IsCanonical bottom.val K) (hpos : 0 < q.length) : Spelled T W bottom K s' := by
  have hbb := isAncestor_bottom hb hbottom
  have hlt : Nat.size b.val < Nat.size bottom.val := by rw [size_bottom hb hbottom]; omega
  exact ⟨hexp, hcan, fun k hk hsome =>
    (h.reaches k (hbb.trans hk) hsome).of_edge (ne_of_isAncestor_of_size_lt hk hlt) hget hbottom⟩

/-- An edge from `n` to a bottom below which `W` spells a canonical trie that is no edge. -/
theorem Spelled.edge {b : NodeIndex} {p : PathToBottom} (h : Spelled T W b K s) (hroot : root ≤ n)
    (hpos : 0 < p.length) (hlength : Nat.size n.val + p.length ≤ 252)
    (hb : b.val = p.bottomValue n.val) (hs : s.isEdge = false)
    (hget : W.get n = some (.edge p))
    (houtside : ∀ k : NodeIndex, IsAncestor n.val k.val → k ≠ n → ¬ IsAncestor b.val k.val →
      W.get k = none) :
    Spelled T W n K (.edge p s) := by
  refine ⟨.edge hget hb h.expands, .edge hpos hlength hs (hb ▸ h.canonical), fun k hk hsome => ?_⟩
  by_cases hkn : k = n
  · subst hkn
    exact .refl _
  by_cases hbk : IsAncestor b.val k.val
  · exact .edge hget hb (h.reaches k hbk hsome)
  · simp [houtside k hk hkn hbk] at hsome

/-- A binary node at `n` over two children below which `W` spells canonical tries. -/
theorem Spelled.binary {c₀ c₁ : NodeIndex} {K₀ K₁ : Set Nat} {s₀ s₁ : Shape}
    (h₀ : Spelled T W c₀ K₀ s₀) (h₁ : Spelled T W c₁ K₁ s₁) (hroot : root ≤ n)
    (hsize : Nat.size n.val < 252) (hc₀ : c₀.val = 2 * n.val) (hc₁ : c₁.val = 2 * n.val + 1)
    (hget : W.get n = some .binary) :
    Spelled T W n (K₀ ∪ K₁) (.binary s₀ s₁) := by
  refine ⟨.binary hget hc₀ hc₁ h₀.expands h₁.expands,
    .binary hsize (hc₀ ▸ h₀.canonical) (hc₁ ▸ h₁.canonical), fun k hk hsome => ?_⟩
  by_cases hkn : k = n
  · subst hkn
    exact .refl _
  -- below one of the two children
  obtain ⟨c, hc, hck⟩ := isAncestor_child_of_ne hk hkn
  rcases hc with hc | hc
  · rw [show c = c₀ from NodeIndex.ext (hc.trans hc₀.symm)] at hck
    exact .binary hget (.inl hc₀) (h₀.reaches k hck hsome)
  · rw [show c = c₁ from NodeIndex.ext (hc.trans hc₁.symm)] at hck
    exact .binary hget (.inr hc₁) (h₁.reaches k hck hsome)

end Realizes

/-! ## 6. Building a node from its children -/

section Build

variable {T : Option (Trie L)} {U : UpdatedSkeletonNodeMap} {n c b : NodeIndex} {K : Set Nat}

/-- **`finalize_child`**: a child that is not deleted is written at its index. -/
theorem finalizeChild_spec {r : TempSkeletonNode} (h : Realizes T U c K r) (hr : r ≠ .empty) :
    ∃ node U', finalizeChild ⟨U⟩ c r = some ⟨U'⟩ ∧ Writes U c node U' ∧ Spells T U c K node := by
  cases r with
  | empty => exact absurd rfl hr
  | leaf =>
    refine ⟨.leaf, U, ?_, .of_get h.1, h.2⟩
    simp [finalizeChild, HashMap.containsKey, h.1]
  | original node =>
    cases node with
    | binary => exact ⟨.binary, _, rfl, .insert h.1 rfl, h.2⟩
    | edge p => exact ⟨.edge p, _, rfl, .insert h.1 rfl, h.2⟩
    | unmodifiedSubTree hash => exact ⟨.unmodifiedSubTree hash, U, rfl, .of_get h.1, h.2⟩

/-- Below `b`, the map with an edge written at `n` above it is the map with `node` written at `b`. -/
theorem Writes.get_insert_above {U' : UpdatedSkeletonNodeMap} {node top : UpdatedSkeletonNode}
    (hw : Writes U b node U') (hlt : Nat.size n.val < Nat.size b.val) {k : NodeIndex}
    (hk : IsAncestor b.val k.val) : (U'.insert n top).2.get k = (U.insert b node).2.get k := by
  rw [HashMap.get_insert, if_neg (ne_of_isAncestor_of_size_lt hk hlt), hw.get_eq]

/-- `node_from_binary_data` once the children are known. -/
theorem nodeFromBinaryData_eq {self : UpdatedSkeletonTreeImpl} {c₀ c₁ : NodeIndex}
    (hchildren : n.getChildrenIndices = some (c₀, c₁)) (left right : TempSkeletonNode) :
    nodeFromBinaryData self n left right =
      if !left.isEmpty && !right.isEmpty then
        (finalizeChild self c₀ left).bind fun self =>
          (finalizeChild self c₁ right).map fun self => (self, .original .binary)
      else if right = .empty then nodeFromEdgeData self .leftChild c₀ left
      else nodeFromEdgeData self .rightChild c₁ right := by
  simp only [nodeFromBinaryData, hchildren, Option.bind_eq_bind, Option.bind_some]
  split
  · -- the loop over the two children
    simp only [List.foldlM_cons, List.foldlM_nil, Option.bind_eq_bind, Option.pure_def]
    cases finalizeChild self c₀ left with
    | none => rfl
    | some self₁ =>
      simp only [Option.bind_some]
      cases finalizeChild self₁ c₁ right <;> rfl
  · split <;> rfl

/-- With nothing at `n` nor below the child `c'`, there is nothing below `n` off the child `c`. -/
theorem get_eq_none_of_sibling {c c' : NodeIndex} (hc : c.val = 2 * n.val ∨ c.val = 2 * n.val + 1)
    (hc' : c'.val = 2 * n.val ∨ c'.val = 2 * n.val + 1) (hne : c ≠ c') (hn : U.get n = none)
    (hnone : ∀ k : NodeIndex, IsAncestor c'.val k.val → U.get k = none) :
    ∀ k : NodeIndex, IsAncestor n.val k.val → ¬ IsAncestor c.val k.val → U.get k = none := by
  intro k hk hck
  by_cases hkn : k = n
  · rw [hkn, hn]
  obtain ⟨c'', hc'', hk''⟩ := isAncestor_child_of_ne hk hkn
  have hval : c.val ≠ c'.val := fun h => hne (NodeIndex.ext h)
  -- the child above `k` is one of the two
  rcases (show c''.val = c.val ∨ c''.val = c'.val by omega) with h | h
  · exact absurd (NodeIndex.ext h ▸ hk'') hck
  · exact hnone k (NodeIndex.ext h ▸ hk'')

variable (hok : UnmodifiedOk T U) (hroot : root ≤ n)
include hok hroot

/-- An edge from `n` over a bottom that was written, and is no edge. -/
theorem realizes_edge_of_writes {U' : UpdatedSkeletonNodeMap} {p : PathToBottom}
    {node : UpdatedSkeletonNode} (hpos : 0 < p.length) (hlength : Nat.size n.val + p.length ≤ 252)
    (hb : b.val = p.bottomValue n.val) (hspells : Spells T U b K node) (hw : Writes U b node U')
    (hnode : ∀ q, node ≠ .edge q)
    (houtside : ∀ k : NodeIndex, IsAncestor n.val k.val → ¬ IsAncestor b.val k.val →
      U.get k = none) :
    Realizes T U' n K (.original (.edge p)) := by
  have hbroot := root_le_of_isAncestor hroot (isAncestor_bottom hroot hb)
  have hlt : Nat.size n.val < Nat.size b.val := by rw [size_bottom hroot hb]; omega
  have hbn : n ≠ b := fun h => by rw [h] at hlt; omega
  have hnotb : ¬ IsAncestor b.val n.val := fun h => by have := h.1; omega
  obtain ⟨s, hs⟩ := hspells
  -- what is written at the bottom is no edge, and an unmodified subtree there is none either
  have hsedge : s.isEdge = false := by
    refine hs.expands.isEdge_eq_false (hw.unmodifiedOk hok) fun q heq => hnode q ?_
    rw [HashMap.get_insert, if_pos rfl] at heq
    exact Option.some.inj heq
  refine ⟨by rw [hw.get_of_ne hbn]; exact houtside n (IsAncestor.refl _) hnotb,
    .edge p s, ?_⟩
  refine (hs.congr hbroot fun k hk => hw.get_insert_above hlt hk).edge hroot hpos hlength hb hsedge
    (by simp) fun k hk hkn hbk => ?_
  have hkb : k ≠ b := fun h => hbk (h ▸ IsAncestor.refl _)
  rw [HashMap.get_insert, if_neg hkn, hw.get_of_ne hkb]
  exact houtside k hk hbk

/-- **`node_from_edge_data`**: the node at the top of an edge, over what its bottom became. -/
theorem nodeFromEdgeData_spec {p : PathToBottom} {r : TempSkeletonNode} (hpos : 0 < p.length)
    (hlength : Nat.size n.val + p.length ≤ 252) (hb : b.val = p.bottomValue n.val)
    (hr : Realizes T U b K r)
    (houtside : ∀ k : NodeIndex, IsAncestor n.val k.val → ¬ IsAncestor b.val k.val →
      U.get k = none) :
    ∃ U' r', nodeFromEdgeData ⟨U⟩ p b r = some (⟨U'⟩, r') ∧ Grows n U U' ∧
      Realizes T U' n K r' := by
  have hnb := isAncestor_bottom hroot hb
  have hbroot := root_le_of_isAncestor hroot hnb
  have hlt : Nat.size n.val < Nat.size b.val := by rw [size_bottom hroot hb]; omega
  have hbn : b ≠ n := fun h => by rw [h] at hlt; omega
  cases r with
  | empty =>
    refine ⟨U, .empty, rfl, .refl _ _, hr.1, fun k hk => ?_⟩
    by_cases hbk : IsAncestor b.val k.val
    · exact hr.2 k hbk
    · exact houtside k hk hbk
  | leaf =>
    refine ⟨U, _, ?_, .refl _ _,
      realizes_edge_of_writes hok hroot hpos hlength hb hr.2 (.of_get hr.1) (by simp) houtside⟩
    simp [nodeFromEdgeData, HashMap.containsKey, hr.1]
  | original node =>
    cases node with
    | binary =>
      -- the bottom is written now
      have hw : Writes U b .binary (U.insert b .binary).2 := .insert hr.1 rfl
      exact ⟨_, _, rfl, hw.grows hnb hbn,
        realizes_edge_of_writes hok hroot hpos hlength hb hr.2 hw (by simp) houtside⟩
    | unmodifiedSubTree hash =>
      exact ⟨U, _, rfl, .refl _ _,
        realizes_edge_of_writes hok hroot hpos hlength hb hr.2 (.of_get hr.1) (by simp) houtside⟩
    | edge q =>
      -- two edges in a row become one, down to the bottom of the second
      obtain ⟨hbnone, s, hs⟩ := hr
      have hget : (U.insert b (.edge q)).2.get b = some (.edge q) := by simp
      obtain ⟨bottom, s', hbottom, rfl, hexp⟩ := hs.expands.of_edge hget
      have hcan := hs.canonical
      cases hcan with
      | edge hqpos hqlength hs'edge hcan' =>
      have hsizeb := size_bottom hroot hb
      obtain ⟨pq, hpq, hlen, hpath⟩ := PathToBottom.concatPaths_of_le (p := p) (q := q) (by
        have := size_pos_of_root_le hroot
        unfold actualHeight
        omega)
      have hbottom' : bottom.val = pq.bottomValue n.val := by
        rw [bottomValue_concat p q n.val hlen hpath, ← hb, hbottom]
      have hsbot := hs.of_edge hbroot hget hbottom hexp (hbottom ▸ hcan') hqpos
      have hbb := isAncestor_bottom hbroot hbottom
      have hltb : Nat.size b.val < Nat.size bottom.val := by
        rw [size_bottom hbroot hbottom]; omega
      have hltn : Nat.size n.val < Nat.size bottom.val := by omega
      refine ⟨U, .original (.edge pq), by simp [nodeFromEdgeData, hpq], .refl _ _,
        houtside n (IsAncestor.refl _) fun h => by have := h.1; omega, .edge pq s', ?_⟩
      refine (hsbot.congr (root_le_of_isAncestor hbroot hbb) fun k hk => ?_).edge hroot
        (by omega) (by omega) hbottom' hs'edge (by simp) fun k hk hkn hbk => ?_
      · rw [HashMap.get_insert, HashMap.get_insert, if_neg (ne_of_isAncestor_of_size_lt hk hltn),
          if_neg (ne_of_isAncestor_of_size_lt hk hltb)]
      · -- off the way to the bottom there is nothing: not below `b`, nor beside the edge below it
        rw [HashMap.get_insert, if_neg hkn]
        by_cases hkb : IsAncestor b.val k.val
        · by_cases hkb' : k = b
          · rw [hkb', hbnone]
          · by_contra hsome
            have hreach := (hs.reaches k hkb (by
              rw [HashMap.get_insert, if_neg hkb']
              exact Option.isSome_iff_ne_none.mpr hsome)).of_edge hkb' hget hbottom
            exact hbk (hreach.isAncestor (root_le_of_isAncestor hbroot hbb))
        · exact houtside k hk hkb

/-- **`node_from_binary_data`**: the node at `n`, over what its two children became. -/
theorem nodeFromBinaryData_spec {c₀ c₁ : NodeIndex} {K₀ K₁ : Set Nat}
    {left right : TempSkeletonNode} (hleaf : n.isLeaf = false) (hc₀ : c₀.val = 2 * n.val)
    (hc₁ : c₁.val = 2 * n.val + 1) (h₀ : Realizes T U c₀ K₀ left) (h₁ : Realizes T U c₁ K₁ right)
    (hn : U.get n = none) :
    ∃ U' r, nodeFromBinaryData ⟨U⟩ n left right = some (⟨U'⟩, r) ∧ Grows n U U' ∧
      Realizes T U' n (K₀ ∪ K₁) r := by
  obtain ⟨l, r', hchildren, hl, hr⟩ := getChildrenIndices_eq hleaf
  obtain rfl : l = c₀ := NodeIndex.ext (hl.trans hc₀.symm)
  obtain rfl : r' = c₁ := NodeIndex.ext (hr.trans hc₁.symm)
  have hsize := size_lt_of_isLeaf_eq_false hleaf
  have hn₀ := isAncestor_child hroot (.inl hc₀)
  have hn₁ := isAncestor_child hroot (.inr hc₁)
  have hroot₀ := root_le_of_isAncestor hroot hn₀
  have hroot₁ := root_le_of_isAncestor hroot hn₁
  have hlt₀ : Nat.size n.val < Nat.size l.val := by rw [size_child hroot (.inl hc₀)]; omega
  have hlt₁ : Nat.size n.val < Nat.size r'.val := by rw [size_child hroot (.inr hc₁)]; omega
  have hne : l ≠ r' := fun h => by have := congrArg NodeIndex.val h; omega
  rw [nodeFromBinaryData_eq hchildren]
  by_cases hboth : left ≠ .empty ∧ right ≠ .empty
  · -- both children are written, the left one first
    rw [if_pos (by simp [TempSkeletonNode.isEmpty, hboth.1, hboth.2])]
    obtain ⟨node₀, U₁, hf₀, hw₀, s₀, hs₀⟩ := finalizeChild_spec h₀ hboth.1
    have hoff₀ : ∀ k : NodeIndex, IsAncestor r'.val k.val → k ≠ l := fun k hk h =>
      not_isAncestor_of_sibling hroot (.inr hc₁) (.inl hc₀) hne.symm hk (h ▸ IsAncestor.refl _)
    obtain ⟨node₁, U₂, hf₁, hw₁, s₁, hs₁⟩ :=
      finalizeChild_spec (h₁.congr hroot₁ fun k hk => hw₀.get_of_ne (hoff₀ k hk)) hboth.2
    have hoff₁ : ∀ k : NodeIndex, IsAncestor l.val k.val → k ≠ r' := fun k hk h =>
      not_isAncestor_of_sibling hroot (.inl hc₀) (.inr hc₁) hne hk (h ▸ IsAncestor.refl _)
    refine ⟨U₂, .original .binary, by simp [hf₀, hf₁],
      (hw₀.grows hn₀ (ne_of_isAncestor_of_size_lt (IsAncestor.refl _) hlt₀)).trans
        (hw₁.grows hn₁ (ne_of_isAncestor_of_size_lt (IsAncestor.refl _) hlt₁)), ?_,
      .binary s₀ s₁, ?_⟩
    · rw [hw₁.get_of_ne (ne_of_isAncestor_of_size_lt (IsAncestor.refl _) hlt₁).symm, hw₀.get_of_ne
        (ne_of_isAncestor_of_size_lt (IsAncestor.refl _) hlt₀).symm, hn]
    · refine Spelled.binary (hs₀.congr hroot₀ fun k hk => ?_) (hs₁.congr hroot₁ fun k hk => ?_)
        hroot hsize hc₀ hc₁ (by simp)
      · rw [HashMap.get_insert, if_neg (ne_of_isAncestor_of_size_lt hk hlt₀),
          hw₁.get_of_ne (hoff₁ k hk), hw₀.get_eq]
      · rw [HashMap.get_insert, if_neg (ne_of_isAncestor_of_size_lt hk hlt₁), hw₁.get_eq]
  · -- at most one child is left: an edge down to it
    rw [if_neg (by simpa [TempSkeletonNode.isEmpty] using hboth)]
    by_cases hright : right = .empty
    · rw [if_pos hright]
      subst hright
      obtain ⟨rfl, hnone₁⟩ := h₁
      rw [Set.union_empty]
      exact nodeFromEdgeData_spec hok hroot (by decide)
        (by simp only [PathToBottom.leftChild]; omega)
        (by rw [hc₀]; simp [PathToBottom.bottomValue, PathToBottom.leftChild, Nat.shiftLeft_eq]; omega)
        h₀ (get_eq_none_of_sibling (.inl hc₀) (.inr hc₁) hne hn hnone₁)
    · rw [if_neg hright]
      have hleft : left = .empty := by
        by_contra hleft
        exact hboth ⟨hleft, hright⟩
      subst hleft
      obtain ⟨rfl, hnone₀⟩ := h₀
      rw [Set.empty_union]
      exact nodeFromEdgeData_spec hok hroot (by decide)
        (by simp only [PathToBottom.rightChild]; omega)
        (by rw [hc₁]; simp [PathToBottom.bottomValue, PathToBottom.rightChild, Nat.shiftLeft_eq]; omega)
        h₁ (get_eq_none_of_sibling (.inr hc₁) (.inl hc₀) hne.symm hn hnone₀)

end Build

end Sequencer.Patricia
