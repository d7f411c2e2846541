/-
# From storage to the new root hash

A commit of one trie runs the three passes of the Patricia-Merkle tree on it: the original
skeleton read from storage (`OriginalSkeletonTreeImpl::create`), the updated skeleton
(`UpdatedSkeletonTreeImpl::create`) and the filled tree
(`FilledTreeImpl::create_with_existing_leaves`).  The skeleton leaves the updated skeleton is
given are what the committer makes of the modified leaves, `SkeletonLeaf::from` of their value:
zero for an empty leaf, and not zero otherwise.

From a trie stored in canonical form and hashed by the tree hash function, the three passes
succeed and return the root hash of the leaves after the update (`commit_root_hash`), which
depends on those leaves alone (`IsRootHash.unique`) and not on the trie before.
-/
import Sequencer.Patricia.FilledHash
import Sequencer.Patricia.FetchedSkeleton

namespace Sequencer.Patricia

open HeapIndex NodeIndex

variable {L : Type}

section Leaves

variable [FilledLeaf L] {T : Option (Trie L)} {lm : LeafModifications L}
  {M : LeafModifications SkeletonLeaf}

/-- The skeleton leaves are the modified leaves, zero where a leaf is empty. -/
def SkeletonLeavesOf (M : LeafModifications SkeletonLeaf) (lm : LeafModifications L) : Prop :=
  ∀ k, M.get k = (lm.get k).map fun leaf => if FilledLeaf.isEmpty leaf then .zero else .nonZero

/-- Some leaf is modified, so some skeleton leaf is given. -/
theorem SkeletonLeavesOf.ne_nil (hM : SkeletonLeavesOf M lm) (hlm : lm ≠ []) : M ≠ [] := by
  obtain ⟨e, rest, rfl⟩ := List.exists_cons_of_ne_nil hlm
  intro hnil
  have := hM e.1
  rw [hnil] at this
  simp [HashMap.get] at this

/-- The updated skeleton holds a leaf where the update leaves one. -/
theorem SkeletonLeavesOf.isSome_updatedLeafAt_iff (hM : SkeletonLeavesOf M lm) (j : NodeIndex) :
    (updatedLeafAt T lm j).isSome ↔ j.val ∈ updatedLeaves M (leavesOf T) := by
  have hval : ∀ j' : NodeIndex, j'.val = j.val → j' = j := fun j' h => NodeIndex.ext h
  cases hj : lm.get j with
  | none =>
    -- an unmodified leaf is the old one
    have hMj : M.get j = none := by rw [hM, hj]; rfl
    have hold : (T.bind fun t => t.leafAt root.val j.val).isSome ↔ j.val ∈ leavesOf T := by
      cases T with
      | none => simp [leavesOf]
      | some t => simp [leavesOf, Trie.keys]
    simp only [updatedLeafAt, hj]
    rw [hold]
    constructor
    · intro h
      exact .inr ⟨h, fun j' h' => by rw [hval j' h', hMj]⟩
    · rintro (⟨j', h', hj'⟩ | ⟨h, -⟩)
      · rw [hval j' h', hMj] at hj'
        cases hj'
      · exact h
  | some leaf =>
    have hMj : M.get j = some (if FilledLeaf.isEmpty leaf then .zero else .nonZero) := by
      rw [hM, hj]
      rfl
    cases he : FilledLeaf.isEmpty leaf with
    | false =>
      -- a new leaf
      simp only [updatedLeafAt, hj, he, Bool.false_eq_true, if_false, Option.isSome_some, true_iff]
      exact .inl ⟨j, rfl, by rw [hMj, he]; rfl⟩
    | true =>
      -- a deleted leaf
      simp only [updatedLeafAt, hj, he, if_true, Option.isSome_none, Bool.false_eq_true, false_iff]
      rintro (⟨j', h', hj'⟩ | ⟨-, hnone⟩)
      · rw [hval j' h', hMj, he] at hj'
        cases hj'
      · rw [hnone j rfl] at hMj
        cases hMj

/-- A leaf of the bottom layer is a modified leaf that is not empty. -/
theorem SkeletonLeavesOf.exists_of_bottomLayer (hM : SkeletonLeavesOf M lm)
    {O : OriginalSkeletonNodeMap} {k : NodeIndex} (h : bottomLayer M O k = some .leaf) :
    ∃ leaf, lm.get k = some leaf ∧ FilledLeaf.isEmpty leaf = false := by
  have hnonZero : M.get k = some .nonZero := by
    unfold bottomLayer leafLayer at h
    split at h
    · cases h
    · split at h
      · assumption
      · cases h
  rw [hM] at hnonZero
  obtain ⟨leaf, hleaf, he⟩ := Option.map_eq_some_iff.mp hnonZero
  refine ⟨leaf, hleaf, ?_⟩
  cases he' : FilledLeaf.isEmpty leaf
  · rfl
  · rw [he'] at he
    cases he

/-- Below an unmodified subtree of the original skeleton, no leaf is modified. -/
theorem SkeletonLeavesOf.get_eq_none_of_unmodified (hM : SkeletonLeavesOf M lm)
    {O : OriginalSkeletonTreeImpl} (hO : IsOriginal T O) (hS : SortedKeys M O.sortedLeafIndices)
    {k : NodeIndex} {hash : Felt} (h : O.nodes.get k = some (.unmodifiedSubTree hash))
    {j : NodeIndex} (hkj : IsAncestor k.val j.val) : lm.get j = none := by
  cases hO with
  | empty hnodes =>
    rw [hnodes] at h
    cases h
  | trie _ hc _ hget =>
    rw [hget] at h
    obtain ⟨-, -, -, -, hempty⟩ := Trie.originalNode_eq_unmodified (by decide) hc h
    cases hj : lm.get j with
    | none => rfl
    | some leaf =>
      -- a modified leaf is listed, so it is not below the subtree
      have hmem : j ∈ O.sortedLeafIndices := (hS.mem_iff j).mpr (by rw [hM, hj]; rfl)
      have hbelow : j ∈ leavesBelow O.sortedLeafIndices k.val := mem_leavesBelow.mpr ⟨hmem, hkj⟩
      rw [List.isEmpty_iff] at hempty
      rw [hempty] at hbelow
      cases hbelow

/-- A trie whose keys are the updated leaves, and whose leaves are the updated ones, holds the
updated leaf at every index. -/
theorem SkeletonLeavesOf.leafAt_eq (hM : SkeletonLeavesOf M lm) {t : Trie L}
    (hkeys : t.keys root.val = updatedLeaves M (leavesOf T))
    (hsound : ∀ j leaf, t.leafAt root.val j.val = some leaf → updatedLeafAt T lm j = some leaf)
    (j : NodeIndex) : t.leafAt root.val j.val = updatedLeafAt T lm j := by
  cases htj : t.leafAt root.val j.val with
  | some leaf => exact (hsound j leaf htj).symm
  | none =>
    -- an index the update leaves a leaf at is a key of the trie
    refine (Option.not_isSome_iff_eq_none.mp fun hsome => ?_).symm
    have hj : j.val ∈ t.keys root.val := hkeys ▸ (hM.isSome_updatedLeafAt_iff j).mp hsome
    simp [Trie.keys, htj] at hj

end Leaves

/-- **A commit computes the root hash of the updated leaves**: from a trie stored in canonical
form and hashed by the tree hash function, and modifications of its leaves listed in order with
the skeleton leaves the committer makes of them, the original skeleton, the updated skeleton and
the filled tree all succeed, and the root hash is the root hash of the leaves after the update:
the hash of the empty tree when none is left, and otherwise the hash of their canonical trie. -/
theorem commit_root_hash [DecidableEq L] [Leaf L] [FilledLeaf L] [TreeHashFunction L]
    {fuel fuel' fuel'' : Nat}
    {storage : Storage} {T : Option (Trie L)} {rootHash : Felt} {S : SortedLeafIndices}
    {config : OriginalSkeletonTreeConfig} {lm : LeafModifications L}
    {M : LeafModifications SkeletonLeaf}
    (hdecode : ∀ leaf : L, Leaf.deserialize (Leaf.serialize leaf) = .ok leaf)
    (hT : StoredUnder storage T rootHash) (hcanonical : ∀ t ∈ T, t.Canonical)
    (hhashed : ∀ t ∈ T, t.HashedBy) (hempty : rootHash = Felt.zero → T = none) (hlm : lm ≠ [])
    (hM : SkeletonLeavesOf M lm) (hMnodup : (M.map Prod.fst).Nodup) (hS : SortedKeys M S)
    (hcompare : config.compareModifiedLeaves = true → ∀ i ∈ S, (lm.get i).isSome)
    (hfuel : 253 ≤ fuel) (hfuel' : 252 ≤ fuel') (hfuel'' : 252 ≤ fuel'') :
    ∃ O U F, OriginalSkeletonTreeImpl.create fuel storage rootHash S config lm = some (.ok O) ∧
      UpdatedSkeletonTreeImpl.create fuel' O M = some (.ok U) ∧
      FilledTreeImpl.createWithExistingLeaves fuel'' U lm = some (.ok F) ∧
      IsRootHash (updatedLeafAt T lm) F.rootHash := by
  have hMne : M ≠ [] := hM.ne_nil hlm
  obtain ⟨O, hO, hsorted, horiginal⟩ := createImpl_isOriginal fuel storage T rootHash S config lm
    hdecode hT hcanonical hempty (hS.ne_nil hMne) hS.sorted hS.leaves hcompare hfuel
  have hS' : SortedKeys M O.sortedLeafIndices := hsorted ▸ hS
  obtain ⟨U, hU, ⟨hX, rfl⟩ | ⟨hroot, hout, hlayer, s, hs⟩⟩ :=
    create_eq hfuel' hMne hMnodup hS' horiginal
  · -- no leaf is left: the empty tree
    refine ⟨O, ⟨[]⟩, FilledTreeImpl.createEmpty, hO, hU, ?_, .inl ⟨fun j => ?_, rfl⟩⟩
    · simp [FilledTreeImpl.createWithExistingLeaves, hlm, UpdatedSkeletonTreeImpl.isEmpty,
        HashMap.get, FilledTreeImpl.createEmpty]
    · have hnone : j.val ∉ updatedLeaves M (leavesOf T) := by
        rw [hX]
        exact Set.notMem_empty _
      exact Option.not_isSome_iff_eq_none.mp ((hM.isSome_updatedLeafAt_iff j).not.mpr hnone)
  -- the skeleton's leaves and unmodified subtrees are those of the bottom layer
  have hleaf : ∀ k, U.get k = some .leaf →
      ∃ leaf, lm.get k = some leaf ∧ FilledLeaf.isEmpty leaf = false := fun k hk =>
    hM.exists_of_bottomLayer (hlayer k .leaf hk rfl)
  have hunmod : ∀ k hash, U.get k = some (.unmodifiedSubTree hash) →
      ∀ j : NodeIndex, IsAncestor k.val j.val → lm.get j = none := fun k hash hk j hkj =>
    hM.get_eq_none_of_unmodified horiginal hS'
      (bottomLayer_eq_unmodified (hlayer k _ hk rfl)) hkj
  obtain ⟨t, treeMap, hF, hshape, hh, hsound⟩ := createWithExistingLeaves_spec hhashed hleaf hunmod
    hlm (create_keysNodup hU) hout hroot hs hfuel''
  refine ⟨O, ⟨U⟩, ⟨treeMap, t.hash⟩, hO, hU, hF, .inr ⟨t, ?_⟩⟩
  obtain ⟨hwf, hc⟩ := Trie.wf_of_isCanonical hs.canonical hshape
  have hkeys : t.keys root.val = updatedLeaves M (leavesOf T) := by
    rw [← Trie.keys_shape, hshape, hs.canonical.keys_eq]
  exact ⟨hwf, hc, hh, hM.leafAt_eq hkeys hsound, rfl⟩

/-- The trie of one storage value, its leaf written again, with a hash function that gives every
node the same hash. -/
theorem commit_root_hash_firstLeaf :
    ∃ O U F, OriginalSkeletonTreeImpl.create 253 (firstLeafStorage Felt.one Felt.one) Felt.one
        [firstLeaf] ⟨false⟩ [(firstLeaf, (⟨Felt.one⟩ : StarknetStorageValue))] = some (.ok O) ∧
      UpdatedSkeletonTreeImpl.create 252 O [(firstLeaf, .nonZero)] = some (.ok U) ∧
      @FilledTreeImpl.createWithExistingLeaves StarknetStorageValue _ ⟨fun _ => Felt.one⟩ 252 U
          [(firstLeaf, ⟨Felt.one⟩)] = some (.ok F) ∧
      @IsRootHash StarknetStorageValue ⟨fun _ => Felt.one⟩
        (updatedLeafAt (some (firstLeafTrie Felt.one Felt.one))
          [(firstLeaf, (⟨Felt.one⟩ : StarknetStorageValue))]) F.rootHash := by
  let _ : TreeHashFunction StarknetStorageValue := ⟨fun _ => Felt.one⟩
  exact commit_root_hash StarknetStorageValue.deserialize_serialize (storedUnder_firstLeafTrie _ _)
    (fun t ht => by
      obtain rfl := Option.mem_some_iff.mp ht
      exact ⟨rfl, trivial⟩)
    (fun t ht => by
      obtain rfl := Option.mem_some_iff.mp ht
      exact ⟨rfl, rfl⟩)
    (fun h => absurd h (by decide)) (List.cons_ne_nil _ _)
    (fun k => by
      by_cases hk : k = firstLeaf
      · subst hk
        have hne : Felt.one ≠ Felt.zero := by decide
        simp [HashMap.get, FilledLeaf.isEmpty, hne]
      · have hne : (k == firstLeaf) = false := beq_false_of_ne hk
        simp [HashMap.get, List.lookup_cons, hne])
    (by simp) sortedKeys_firstLeaf (fun h => absurd h (by decide)) le_rfl le_rfl le_rfl

end Sequencer.Patricia
