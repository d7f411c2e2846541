/-
# Patricia-Merkle tries in storage

What `fetch_nodes` reads is a trie the committer wrote before: binary nodes, edges and leaves,
each stored under its hash with the hashes of its children in its bytes (`Trie.Stored`).  A
`Trie` carries the hash of every node, whatever function computed it, and sits at a heap index
(`Trie.WF`): its leaves on the last level, its inner nodes above, and each edge of positive
length with its bottom inside the tree.  What it means is the leaf it holds at each index
(`Trie.leafAt`); the empty trie is stored under `ROOT_OF_EMPTY_TREE` (`StoredUnder`).

A trie holds no leaf outside the subtree of its root (`leafAt_eq_none_of_not_isAncestor`), and
each of its nodes reads back from storage as the node the trie has there
(`deserialize_serialize_filledNode`).
-/
import Sequencer.Patricia.OriginalSkeleton

namespace Sequencer.Patricia

open HeapIndex NodeIndex

/-- The index of the bottom of an edge that starts at index `n`. -/
def PathToBottom.bottomValue (pathToBottom : PathToBottom) (n : Nat) : Nat :=
  n <<< pathToBottom.length + pathToBottom.path

/-- A Patricia-Merkle trie with the hash of each of its nodes. -/
inductive Trie (L : Type)
  | binary (hash : Felt) (left right : Trie L)
  | edge (hash : Felt) (pathToBottom : PathToBottom) (bottom : Trie L)
  | leaf (hash : Felt) (data : L)

namespace Trie

variable {L : Type}

/-- The hash of the root. -/
def hash : Trie L → Felt
  | binary hash _ _ => hash
  | edge hash _ _ => hash
  | leaf hash _ => hash

/-- The root as a `FilledNode`: its data, with the hashes of its children. -/
def filledNode : Trie L → FilledNode L
  | binary hash left right => ⟨hash, .binary ⟨left.hash, right.hash⟩⟩
  | edge hash pathToBottom bottom => ⟨hash, .edge ⟨bottom.hash, pathToBottom⟩⟩
  | leaf hash data => ⟨hash, .leaf data⟩

def isLeaf : Trie L → Bool
  | leaf _ _ => true
  | _ => false

/-- The trie sits at index `n`: leaves on the last level, inner nodes above it, and every edge of
positive length with its bottom inside the tree. -/
def WF : Trie L → Nat → Prop
  | binary _ left right, n => Nat.size n < 252 ∧ left.WF (2 * n) ∧ right.WF (2 * n + 1)
  | edge _ pathToBottom bottom, n =>
    0 < pathToBottom.length ∧ Nat.size n + pathToBottom.length ≤ 252 ∧
      bottom.WF (pathToBottom.bottomValue n)
  | leaf _ _, n => Nat.size n = 252

/-- The leaf at index `i` of the trie at index `n`. -/
def leafAt : Trie L → Nat → Nat → Option L
  | binary _ left right, n, i => (left.leafAt (2 * n) i).or (right.leafAt (2 * n + 1) i)
  | edge _ pathToBottom bottom, n, i => bottom.leafAt (pathToBottom.bottomValue n) i
  | leaf _ data, n, i => if i = n then some data else none

section Storage

variable [Leaf L]

/-- The key of the root: the prefix of its kind and its hash. -/
def dbKey (t : Trie L) : StorageKey :=
  createDbKey (if t.isLeaf then Leaf.storagePrefix L else StarknetPrefix.innerNode.toStoragePrefix)
    t.hash.toBytesBe

/-- Every node in storage under its key, as `FilledNode::serialize` writes it. -/
def Stored (storage : Storage) (t : Trie L) : Prop :=
  storage t.dbKey = some t.filledNode.serialize ∧
    match t with
    | binary _ left right => left.Stored storage ∧ right.Stored storage
    | edge _ _ bottom => bottom.Stored storage
    | leaf _ _ => True

theorem Stored.node {storage : Storage} {t : Trie L} (h : t.Stored storage) :
    storage t.dbKey = some t.filledNode.serialize := by
  unfold Stored at h
  exact h.1

theorem Stored.left {storage : Storage} {hash : Felt} {left right : Trie L}
    (h : (binary hash left right).Stored storage) : left.Stored storage := by
  unfold Stored at h
  exact h.2.1

theorem Stored.right {storage : Storage} {hash : Felt} {left right : Trie L}
    (h : (binary hash left right).Stored storage) : right.Stored storage := by
  unfold Stored at h
  exact h.2.2

theorem Stored.bottom {storage : Storage} {hash : Felt} {pathToBottom : PathToBottom}
    {bottom : Trie L} (h : (edge hash pathToBottom bottom).Stored storage) :
    bottom.Stored storage := by
  unfold Stored at h
  exact h.2

end Storage

end Trie

/-- A trie stored under a root hash: the empty trie under `ROOT_OF_EMPTY_TREE`, any other at the
root index with every node in storage. -/
def StoredUnder {L : Type} [Leaf L] (storage : Storage) : Option (Trie L) → Felt → Prop
  | none, rootHash => rootHash = Felt.zero
  | some t, rootHash => rootHash = t.hash ∧ t.WF root.val ∧ t.Stored storage

/-- The leaf a trie held at an index, and the default leaf where it held none. -/
def previousLeafAt {L : Type} [Leaf L] (T : Option (Trie L)) (i : NodeIndex) : L :=
  (T.bind fun t => t.leafAt root.val i.val).getD Leaf.default

/-! ## Where a trie holds its leaves -/

namespace Trie

variable {L : Type}

theorem bottomValue_ne_zero {n : Nat} (hn : n ≠ 0) (pathToBottom : PathToBottom) :
    pathToBottom.bottomValue n ≠ 0 := by
  have : n ≤ n <<< pathToBottom.length := by
    rw [Nat.shiftLeft_eq]
    exact Nat.le_mul_of_pos_right _ (Nat.two_pow_pos _)
  unfold PathToBottom.bottomValue
  omega

theorem isAncestor_bottomValue {n : Nat} (hn : n ≠ 0) (pathToBottom : PathToBottom) :
    IsAncestor n (pathToBottom.bottomValue n) :=
  isAncestor_shiftLeft_add hn _ pathToBottom.path_lt

theorem size_bottomValue {n : Nat} (hn : n ≠ 0) (pathToBottom : PathToBottom) :
    Nat.size (pathToBottom.bottomValue n) = Nat.size n + pathToBottom.length :=
  size_shiftLeft_add hn _ pathToBottom.path_lt

/-- **No leaf outside the subtree of the root.** -/
theorem leafAt_eq_none_of_not_isAncestor (t : Trie L) {n i : Nat} (hn : n ≠ 0)
    (hi : ¬ IsAncestor n i) : t.leafAt n i = none := by
  induction t generalizing n with
  | binary _ left right ihl ihr =>
    -- neither child is an ancestor of `i`, as `n` is an ancestor of both
    have hl := ihl (n := 2 * n) (by omega)
      fun h => hi ((isAncestor_two_mul_add (b := 0) hn (by decide)).trans h)
    have hr := ihr (n := 2 * n + 1) (by omega)
      fun h => hi ((isAncestor_two_mul_add hn (by decide)).trans h)
    rw [leafAt, hl, hr]
    rfl
  | edge _ pathToBottom bottom ih =>
    exact ih (bottomValue_ne_zero hn pathToBottom)
      fun h => hi ((isAncestor_bottomValue hn pathToBottom).trans h)
  | leaf _ data =>
    rw [leafAt, if_neg]
    rintro rfl
    exact hi (IsAncestor.refl _)

/-- Of two siblings, a leaf below one is not below the other. -/
theorem not_isAncestor_sibling {n i : Nat} (hn : n ≠ 0) {b : Nat} (hb : b < 2)
    (hi : IsAncestor (2 * n + b) i) : ¬ IsAncestor (2 * n + (1 - b)) i := by
  intro hi'
  have hsize : Nat.size (2 * n + b) = Nat.size (2 * n + (1 - b)) := by
    rw [size_two_mul_add hn hb, size_two_mul_add hn (by omega)]
  have := hi.eq_of_common hi' hsize
  omega

/-- Below the left child, the binary node holds what its left child holds. -/
theorem leafAt_binary_of_left {hash : Felt} {left right : Trie L} {n i : Nat} (hn : n ≠ 0)
    (hi : IsAncestor (2 * n) i) : (binary hash left right).leafAt n i = left.leafAt (2 * n) i := by
  have hright := right.leafAt_eq_none_of_not_isAncestor (n := 2 * n + 1) (by omega)
    (not_isAncestor_sibling (b := 0) hn (by decide) hi)
  rw [leafAt, hright, Option.or_none]

theorem leafAt_binary_of_right {hash : Felt} {left right : Trie L} {n i : Nat} (hn : n ≠ 0)
    (hi : IsAncestor (2 * n + 1) i) :
    (binary hash left right).leafAt n i = right.leafAt (2 * n + 1) i := by
  have hleft := left.leafAt_eq_none_of_not_isAncestor (n := 2 * n) (by omega)
    (not_isAncestor_sibling (b := 1) hn (by decide) hi)
  rw [leafAt, hleft, Option.none_or]

/-- A leaf on the last level is the only index below itself there. -/
theorem eq_of_isAncestor_of_size {n i : Nat} (hn : Nat.size n = 252) (hi : IsAncestor n i)
    (hsize : Nat.size i = 252) : i = n :=
  (hi.eq_of_size_eq (hn.trans hsize.symm)).symm

/-! ## Reading a node back -/

theorem WF.size_lt {t : Trie L} {n : Nat} (hwf : t.WF n) (hleaf : t.isLeaf = false) :
    Nat.size n < 252 := by
  cases t with
  | binary => exact hwf.1
  | edge _ pathToBottom _ =>
    have := hwf.1
    have := hwf.2.1
    omega
  | leaf => cases hleaf

/-- Where a trie sits, its root is a leaf exactly when it is on the last level. -/
theorem WF.isLeaf_eq {t : Trie L} {n : NodeIndex} (hwf : t.WF n.val) : n.isLeaf = t.isLeaf := by
  cases h : t.isLeaf with
  | false =>
    have := hwf.size_lt h
    rw [Bool.eq_false_iff]
    intro hn
    rw [isLeaf_iff_size.mp hn] at this
    exact lt_irrefl _ this
  | true =>
    cases t with
    | leaf => exact isLeaf_iff_size.mpr hwf
    | binary | edge => cases h

variable [Leaf L]

/-- **Each node reads back**: given a leaf type that decodes what it encodes, the bytes stored for
the root of a trie in place decode as that root. -/
theorem deserialize_serialize_filledNode
    (hdecode : ∀ leaf : L, Leaf.deserialize (Leaf.serialize leaf) = .ok leaf)
    {t : Trie L} {n : Nat} (hn : n ≠ 0) (hwf : t.WF n) :
    FilledNode.deserialize t.hash t.filledNode.serialize t.isLeaf = some (.ok t.filledNode) := by
  cases t with
  | binary hash left right => exact FilledNode.deserialize_serialize_binary hash _
  | edge hash pathToBottom bottom =>
    have hsize : 0 < Nat.size n := Nat.size_pos.mpr (Nat.pos_of_ne_zero hn)
    have hlength : pathToBottom.length ≤ actualHeight := by
      have := hwf.2.1
      unfold actualHeight
      omega
    exact FilledNode.deserialize_serialize_edge hash ⟨bottom.hash, pathToBottom⟩ hlength
  | leaf hash data =>
    simp only [Trie.hash, filledNode, isLeaf, FilledNode.deserialize, FilledNode.serialize,
      if_true, hdecode, Except.map]

end Trie

end Sequencer.Patricia
