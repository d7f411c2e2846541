/-
# `UpdatedSkeletonTreeImpl::create`

From the original skeleton of a stored trie and the modified leaves, `create` returns the skeleton
of the trie after the update.  Where the original skeleton is what `fetch_nodes` records of the
trie (`IsOriginal`), `create` succeeds, and the map it returns is empty when no leaf is left, and
otherwise spells, from the root, the canonical compressed trie of the leaves after the update,
every node of it reachable from the root (`create_spec`).

The middle layers are the two recursions of `create_tree_helper.rs`, at the root
(`finalizeMiddleLayers_spec`); the root is then written as the last node.
-/
import Sequencer.Patricia.UpdatedTree
import Sequencer.Patricia.PreviousLeaves

namespace Sequencer.Patricia

open HeapIndex NodeIndex UpdatedSkeletonTreeImpl

variable {L : Type}

/-- The leaves of a trie, none for the empty trie. -/
def leavesOf : Option (Trie L) → Set Nat
  | none => ∅
  | some t => t.keys root.val

/-- `O` is the original skeleton of the trie `T` for the modified leaves it lists: no node for the
empty trie, and otherwise one entry for each index `Trie.originalNode` records, in a map with
one entry per key. -/
inductive IsOriginal : Option (Trie L) → OriginalSkeletonTreeImpl → Prop
  | empty {O : OriginalSkeletonTreeImpl} : O.nodes = [] → IsOriginal none O
  | trie {t : Trie L} {O : OriginalSkeletonTreeImpl} : t.WF root.val → t.Canonical →
      (O.nodes.map Prod.fst).Nodup →
      (∀ k : NodeIndex, O.nodes.get k = t.originalNode O.sortedLeafIndices root.val k.val) →
      IsOriginal (some t) O

section Create

variable {T : Option (Trie L)} {O : OriginalSkeletonTreeImpl} {M : LeafModifications SkeletonLeaf}

theorem IsOriginal.nodup (hO : IsOriginal T O) : (O.nodes.map Prod.fst).Nodup := by
  cases hO with
  | empty h => rw [h]; exact List.nodup_nil
  | trie _ _ hnodup _ => exact hnodup

/-- Below the root, the original skeleton of a trie records the trie. -/
theorem IsOriginal.records {t : Trie L} (hO : IsOriginal (some t) O) :
    Records (some t) O.sortedLeafIndices root t O.nodes := by
  cases hO with
  | trie hwf hc _ hget => exact ⟨hwf, hc, fun k _ => hget k, fun _ _ _ _ => rfl⟩

theorem bottomLayer_eq_unmodified {O : OriginalSkeletonNodeMap} {k : NodeIndex} {hash : Felt}
    (h : bottomLayer M O k = some (.unmodifiedSubTree hash)) :
    O.get k = some (.unmodifiedSubTree hash) := by
  unfold bottomLayer leafLayer at h
  split at h
  · rename_i hash' hget
    obtain rfl : hash' = hash := by simpa using h
    exact hget
  · split at h <;> cases h

/-- **`finalize_bottom_layer`** puts no unmodified subtree that is not a node of the trie. -/
theorem IsOriginal.unmodifiedOk (hO : IsOriginal T O) (hM : (M.map Prod.fst).Nodup) :
    UnmodifiedOk T (finalizeBottomLayer O M) := by
  intro k hash h
  have hOk := bottomLayer_eq_unmodified (by rwa [finalizeBottomLayer_get O M hM hO.nodup] at h)
  cases hO with
  | empty hnodes => rw [hnodes] at hOk; cases hOk
  | trie hwf hc _ hget =>
    rw [hget k] at hOk
    obtain ⟨t', ht', hhash, hedge, -⟩ := Trie.originalNode_eq_unmodified (by decide) hc hOk
    exact ⟨t', ht', hhash, hedge⟩

/-- With a modified leaf, the bottom layer has no node at the root, nor outside the tree. -/
theorem IsOriginal.bottomLayer_eq_none (hO : IsOriginal T O) (hS : SortedKeys M O.sortedLeafIndices)
    (hne : leavesBelow O.sortedLeafIndices root.val ≠ []) {k : NodeIndex}
    (hk : k = root ∨ ¬ IsAncestor root.val k.val) : bottomLayer M O.nodes k = none := by
  have hleaf : k.isLeaf = false := by
    rcases hk with rfl | hk
    · rfl
    · cases h : k.isLeaf with
      | false => rfl
      | true => exact absurd (isAncestor_one (Nat.pos_iff_ne_zero.mp (root_le_of_isLeaf h))) hk
  have hleafLayer : leafLayer M k = none :=
    hS.leafLayer_eq_none fun h => by rw [hS.leaves k h] at hleaf; cases hleaf
  cases hO with
  | empty hnodes =>
    rw [bottomLayer_of_not_unmodified (by simp [hnodes, HashMap.get]), hleafLayer]
  | @trie t _ hwf hc _ hget =>
    refine (bottomLayer_of_not_unmodified fun hash h => ?_).trans hleafLayer
    rw [hget k] at h
    rcases hk with rfl | hk
    · -- at the root, a modified trie records its root as it is
      cases t with
      | binary => simp [Trie.originalNode, hne] at h
      | edge => simp [Trie.originalNode] at h
      | leaf =>
        have := hwf.isLeaf_eq (n := root)
        cases this
    · rw [Trie.originalNode_of_not_isAncestor _ (by decide) hk] at h
      cases h

/-- Every modified leaf is below the root. -/
theorem SortedKeys.leavesBelow_root {S : List NodeIndex} (hS : SortedKeys M S) :
    leavesBelow S root.val = S := by
  unfold leavesBelow
  exact List.filter_eq_self.mpr fun i hi => decide_eq_true
    (isAncestor_one (Nat.pos_iff_ne_zero.mp (root_le_of_isLeaf (hS.leaves i hi))))

/-- The leaves after the update are all below the root. -/
theorem keysBelow_root (hS : SortedKeys M O.sortedLeafIndices) (hO : IsOriginal T O) :
    keysBelow (updatedLeaves M (leavesOf T)) root.val = updatedLeaves M (leavesOf T) := by
  ext i
  refine ⟨fun hi => hi.1, fun hi => ⟨hi, ?_⟩⟩
  rcases hi with ⟨j, rfl, hj⟩ | ⟨hiK, -⟩
  · exact isAncestor_one (Nat.pos_iff_ne_zero.mp (root_le_of_isLeaf
      (hS.leaves j (hS.mem_of_get hj))))
  · cases hO with
    | empty => exact absurd hiK (Set.notMem_empty i)
    | trie hwf hc hnodup hget =>
      exact ((IsOriginal.trie hwf hc hnodup hget).records.mem_keys le_rfl hiK).1

/-- **`finalize_middle_layers`**: from the root, what the root becomes in the updated trie. -/
theorem finalizeMiddleLayers_spec {fuel : Nat} (hfuel : 252 ≤ fuel) (hM : (M.map Prod.fst).Nodup)
    (hS : SortedKeys M O.sortedLeafIndices) (hne : O.sortedLeafIndices ≠ [])
    (hO : IsOriginal T O) :
    ∃ U' r, finalizeMiddleLayers fuel ⟨finalizeBottomLayer O M⟩ O = some (⟨U'⟩, r) ∧
      Grows root (finalizeBottomLayer O M) U' ∧
      Realizes T U' root (updatedLeaves M (leavesOf T)) r := by
  have hall := hS.leavesBelow_root
  have hU := finalizeBottomLayer_get O M hM hO.nodup
  have hfuel' : 252 < Nat.size root.val + fuel := by
    have : Nat.size root.val = 1 := by decide
    omega
  rw [← keysBelow_root hS hO]
  unfold finalizeMiddleLayers
  cases hO with
  | empty hnodes =>
    -- the trie was empty: the new leaves alone
    obtain ⟨U', r, h, hg, hre⟩ := updateNodeInEmptyTree_spec hS fuel root le_rfl hfuel'
      (finalizeBottomLayer O M) ((IsOriginal.empty hnodes).unmodifiedOk hM)
      (fun k _ => by rw [hU, bottomLayer_of_not_unmodified (by simp [hnodes, HashMap.get])])
      (by rwa [hall])
    rw [hall] at h
    exact ⟨U', r, by simp [hnodes, h], hg, hre⟩
  | @trie t _ hwf hc hnodup hget =>
    have hO := IsOriginal.trie hwf hc hnodup hget
    obtain ⟨U', O', r, h, hg, -, hre⟩ := updateNodeInNonemptyTree_spec hS fuel root le_rfl hfuel'
      t (finalizeBottomLayer O M) O.nodes hO.records (hO.unmodifiedOk hM) fun k _ => hU k
    rw [hall] at h
    -- the original skeleton has its root
    have hroot : O.nodes.isEmpty = false := by
      cases h' : O.nodes.get root with
      | none =>
        rw [hget] at h'
        cases t with
        | binary => simp [Trie.originalNode] at h'; split at h' <;> cases h'
        | edge => simp [Trie.originalNode] at h'
        | leaf => cases hwf.isLeaf_eq (n := root)
      | some _ =>
        cases hnodes : O.nodes with
        | nil => rw [hnodes] at h'; cases h'
        | cons => rfl
    exact ⟨U', r, by simp [hroot, h], hg, hre⟩

/-- What `create` returns: the empty map when no leaf is left, and otherwise a map with an inner
node at the root, from which it spells the canonical trie of the leaves after the update. -/
theorem create_eq {fuel : Nat} (hfuel : 252 ≤ fuel) (hMne : M ≠ []) (hM : (M.map Prod.fst).Nodup)
    (hS : SortedKeys M O.sortedLeafIndices) (hO : IsOriginal T O) :
    ∃ U, create fuel O M = some (.ok ⟨U⟩) ∧
      (updatedLeaves M (leavesOf T) = ∅ ∧ U = [] ∨
        (∃ node, U.get root = some node ∧ node.isInner = true) ∧
          (∀ k : NodeIndex, ¬ IsAncestor root.val k.val → U.get k = none) ∧
          (∀ k node, U.get k = some node → node.isInner = false → bottomLayer M O.nodes k = some node) ∧
          ∃ s, Spelled T U root (updatedLeaves M (leavesOf T)) s) := by
  -- a modification lists its leaf
  have hne : O.sortedLeafIndices ≠ [] := by
    obtain ⟨e, rest, rfl⟩ := List.exists_cons_of_ne_nil hMne
    have : e.1 ∈ O.sortedLeafIndices := (hS.mem_iff e.1).mpr (by simp [HashMap.get])
    exact List.ne_nil_of_mem this
  have hall : leavesBelow O.sortedLeafIndices root.val ≠ [] := by rwa [hS.leavesBelow_root]
  obtain ⟨U', r, h, hg, hre⟩ := finalizeMiddleLayers_spec hfuel hM hS hne hO
  have hget := finalizeBottomLayer_get O M hM hO.nodup
  have hroot : U'.get root = none := by
    rw [hg.get_eq (.inr rfl), hget, hO.bottomLayer_eq_none hS hall (.inl rfl)]
  -- nothing is outside the tree, the root written last apart
  have hout : ∀ node : UpdatedSkeletonNode, ∀ k : NodeIndex, ¬ IsAncestor root.val k.val →
      (U'.insert root node).2.get k = none := fun node k hk => by
    rw [HashMap.get_insert, if_neg fun h : k = root => hk (h ▸ IsAncestor.refl _),
      hg.get_eq (.inl hk), hget, hO.bottomLayer_eq_none hS hall (.inr hk)]
  -- and what is not an inner node is from the bottom layer
  have hlayer : ∀ node : UpdatedSkeletonNode, node.isInner = true → ∀ k node',
      (U'.insert root node).2.get k = some node' → node'.isInner = false →
        bottomLayer M O.nodes k = some node' := fun node hinner k node' hk hnode' => by
    rw [HashMap.get_insert] at hk
    split at hk
    · rw [← Option.some.inj hk, hinner] at hnode'
      cases hnode'
    · rw [← hget k]
      by_contra hne
      obtain ⟨-, node'', hnode'', hinner''⟩ := hg.fresh k fun h => hne (h ▸ hk)
      rw [hk, Option.some.injEq] at hnode''
      rw [← hnode'', hnode'] at hinner''
      cases hinner''
  rw [create, if_neg (by simpa using hMne)]
  simp only [h]
  -- the root is written last, as an inner node
  cases r with
  | empty =>
    -- nothing is left: the map is empty
    have hU' : U' = [] := HashMap.eq_nil_of_get_eq_none fun k => by
      by_cases hk : IsAncestor root.val k.val
      · exact hre.2 k hk
      · rw [hg.get_eq (.inl hk), hget, hO.bottomLayer_eq_none hS hall (.inr hk)]
    subst hU'
    exact ⟨[], rfl, .inl ⟨hre.1, rfl⟩⟩
  | leaf => rw [hre.1] at hroot; cases hroot
  | original node =>
    cases node with
    | binary =>
      obtain ⟨s, hs⟩ := hre.2
      exact ⟨_, by simp [HashMap.insert, hroot],
        .inr ⟨⟨.binary, by simp, rfl⟩, hout _, hlayer _ rfl, s, hs⟩⟩
    | edge p =>
      obtain ⟨s, hs⟩ := hre.2
      exact ⟨_, by simp [HashMap.insert, hroot],
        .inr ⟨⟨.edge p, by simp, rfl⟩, hout _, hlayer _ rfl, s, hs⟩⟩
    | unmodifiedSubTree => rw [hre.1] at hroot; cases hroot

/-- One new leaf, the first one. -/
theorem sortedKeys_firstLeaf : SortedKeys [(firstLeaf, .nonZero)] [firstLeaf] where
  sorted := List.pairwise_singleton _ _
  leaves := fun i hi => by
    rw [List.mem_singleton.mp hi]
    decide
  mem_iff := fun i => by
    by_cases h : i = firstLeaf <;> simp [HashMap.get, h]

/-- The original skeleton of the trie of the first leaf, where that leaf is modified: the edge
at the root. -/
theorem isOriginal_firstLeafTrie (rootHash value : Felt) :
    IsOriginal (some (firstLeafTrie rootHash value))
      ⟨[(root, .edge PathToBottom.toFirstLeaf)], [firstLeaf]⟩ := by
  have hwf : (firstLeafTrie rootHash value).WF root.val := by
    refine ⟨by decide, by decide, ?_⟩
    rw [← firstLeaf_eq_bottomValue]
    exact isLeaf_iff_size.mp (by decide)
  refine .trie hwf ⟨rfl, trivial⟩ (by simp) fun k => ?_
  by_cases hk : k = root
  · subst hk
    simp [firstLeafTrie, Trie.originalNode, HashMap.get]
  · -- below the root, the modified leaf is not recorded
    have hk' : k.val ≠ root.val := fun h => hk (NodeIndex.ext h)
    have hne : (leavesBelow [firstLeaf] root.val).isEmpty = false := by
      rw [sortedKeys_firstLeaf.leavesBelow_root]
      rfl
    have hneB :
        (leavesBelow [firstLeaf] (PathToBottom.toFirstLeaf.bottomValue root.val)).isEmpty = false := by
      rw [← firstLeaf_eq_bottomValue]
      simp [leavesBelow, IsAncestor.refl]
    simp [firstLeafTrie, Trie.originalNode, HashMap.get, hk, hk', hne, hneB]

/-- **`UpdatedSkeletonTreeImpl::create` builds the updated trie**: given the original skeleton of a
trie and modifications of the leaves it lists, `create` succeeds; its map is empty when no leaf is
left, and otherwise spells from the root the canonical compressed trie of the leaves after the
update, with every node reachable from the root. -/
theorem create_spec {fuel : Nat} (hfuel : 252 ≤ fuel) (hMne : M ≠ []) (hM : (M.map Prod.fst).Nodup)
    (hS : SortedKeys M O.sortedLeafIndices) (hO : IsOriginal T O) :
    ∃ U, create fuel O M = some (.ok ⟨U⟩) ∧
      (updatedLeaves M (leavesOf T) = ∅ ∧ U = [] ∨
        ∃ s, Spelled T U root (updatedLeaves M (leavesOf T)) s) := by
  obtain ⟨U, h, hU | ⟨-, -, -, hs⟩⟩ := create_eq hfuel hMne hM hS hO
  · exact ⟨U, h, .inl hU⟩
  · exact ⟨U, h, .inr hs⟩

/-- The first leaf, new in the empty trie. -/
theorem create_spec_firstLeaf :
    ∃ U, create 252 ⟨[], [firstLeaf]⟩ [(firstLeaf, .nonZero)] = some (.ok ⟨U⟩) ∧
      (updatedLeaves [(firstLeaf, .nonZero)] (leavesOf (none : Option (Trie Felt))) = ∅ ∧ U = [] ∨
        ∃ s, Spelled (none : Option (Trie Felt)) U root
          (updatedLeaves [(firstLeaf, .nonZero)] (leavesOf (none : Option (Trie Felt)))) s) :=
  create_spec le_rfl (List.cons_ne_nil _ _) (by simp) sortedKeys_firstLeaf (.empty rfl)

/-- **`is_empty` after `create`** tells whether a leaf is left. -/
theorem create_isEmpty {fuel : Nat} (hfuel : 252 ≤ fuel) (hMne : M ≠ [])
    (hM : (M.map Prod.fst).Nodup) (hS : SortedKeys M O.sortedLeafIndices) (hO : IsOriginal T O) :
    ∃ U b, create fuel O M = some (.ok ⟨U⟩) ∧ isEmpty ⟨U⟩ = some b ∧
      (b = true ↔ updatedLeaves M (leavesOf T) = ∅) := by
  obtain ⟨U, h, ⟨hX, rfl⟩ | ⟨⟨node, hnode, hinner⟩, -, -, s, hs⟩⟩ := create_eq hfuel hMne hM hS hO
  · exact ⟨[], true, h, rfl, iff_of_true rfl hX⟩
  · -- an inner node at the root, over at least one leaf
    refine ⟨U, false, h, ?_, iff_of_false Bool.false_ne_true
      (Set.nonempty_iff_ne_empty.mp hs.canonical.nonempty)⟩
    cases node with
    | binary | edge => simp [isEmpty, hnode]
    | leaf | unmodifiedSubTree => cases hinner

/-- The first leaf deleted from the trie of that leaf. -/
theorem create_isEmpty_firstLeaf :
    ∃ U b, create 252 ⟨[(root, .edge PathToBottom.toFirstLeaf)], [firstLeaf]⟩
        [(firstLeaf, .zero)] = some (.ok ⟨U⟩) ∧ isEmpty ⟨U⟩ = some b ∧
      (b = true ↔ updatedLeaves [(firstLeaf, .zero)] (leavesOf (some (firstLeafTrie Felt.one Felt.one))) = ∅) :=
  create_isEmpty le_rfl (List.cons_ne_nil _ _) (by simp)
    ⟨List.pairwise_singleton _ _, sortedKeys_firstLeaf.leaves, fun i => by
      by_cases h : i = firstLeaf <;> simp [HashMap.get, h]⟩
    (isOriginal_firstLeafTrie Felt.one Felt.one)

/-- **The updated trie does not depend on the history**: two runs of `create` that leave the same
leaves, from whatever tries and modifications, spell one shape from the root. -/
theorem create_history_independent {T₁ T₂ : Option (Trie L)} {O₁ O₂ : OriginalSkeletonTreeImpl}
    {M₁ M₂ : LeafModifications SkeletonLeaf} {fuel₁ fuel₂ : Nat} (hfuel₁ : 252 ≤ fuel₁)
    (hfuel₂ : 252 ≤ fuel₂) (hMne₁ : M₁ ≠ []) (hMne₂ : M₂ ≠ []) (hM₁ : (M₁.map Prod.fst).Nodup)
    (hM₂ : (M₂.map Prod.fst).Nodup) (hS₁ : SortedKeys M₁ O₁.sortedLeafIndices)
    (hS₂ : SortedKeys M₂ O₂.sortedLeafIndices) (hO₁ : IsOriginal T₁ O₁) (hO₂ : IsOriginal T₂ O₂)
    (hX : updatedLeaves M₁ (leavesOf T₁) = updatedLeaves M₂ (leavesOf T₂))
    (hne : (updatedLeaves M₁ (leavesOf T₁)).Nonempty) :
    ∃ U₁ U₂ s, create fuel₁ O₁ M₁ = some (.ok ⟨U₁⟩) ∧ create fuel₂ O₂ M₂ = some (.ok ⟨U₂⟩) ∧
      Expands T₁ U₁ root s ∧ Expands T₂ U₂ root s := by
  obtain ⟨U₁, h₁, ⟨hX₁, -⟩ | ⟨-, -, -, s₁, hs₁⟩⟩ := create_eq hfuel₁ hMne₁ hM₁ hS₁ hO₁
  · exact absurd hX₁ (Set.nonempty_iff_ne_empty.mp hne)
  obtain ⟨U₂, h₂, ⟨hX₂, -⟩ | ⟨-, -, -, s₂, hs₂⟩⟩ := create_eq hfuel₂ hMne₂ hM₂ hS₂ hO₂
  · exact absurd (hX.trans hX₂) (Set.nonempty_iff_ne_empty.mp hne)
  -- both spell the canonical trie of one set of leaves
  have hs : s₁ = s₂ := hs₁.canonical.unique (by decide) hs₂.canonical hX
  exact ⟨U₁, U₂, s₁, h₁, h₂, hs₁.expands, hs ▸ hs₂.expands⟩

/-- The first leaf written into the empty trie, and written again over itself. -/
theorem create_history_independent_firstLeaf :
    ∃ U₁ U₂ s, create 252 ⟨[], [firstLeaf]⟩ [(firstLeaf, .nonZero)] = some (.ok ⟨U₁⟩) ∧
      create 252 ⟨[(root, .edge PathToBottom.toFirstLeaf)], [firstLeaf]⟩ [(firstLeaf, .nonZero)] =
        some (.ok ⟨U₂⟩) ∧
      Expands (none : Option (Trie StarknetStorageValue)) U₁ root s ∧
      Expands (some (firstLeafTrie Felt.one Felt.one)) U₂ root s := by
  have hM : HashMap.get [(firstLeaf, SkeletonLeaf.nonZero)] firstLeaf = some .nonZero := by
    simp [HashMap.get]
  have hkeys : leavesOf (some (firstLeafTrie Felt.one Felt.one)) = {firstLeaf.val} := by
    rw [leavesOf, firstLeafTrie, Trie.keys_edge, Trie.keys_leaf, ← firstLeaf_eq_bottomValue]
  exact create_history_independent le_rfl le_rfl (List.cons_ne_nil _ _) (List.cons_ne_nil _ _)
    (by simp) (by simp) sortedKeys_firstLeaf sortedKeys_firstLeaf (.empty rfl)
    (isOriginal_firstLeafTrie Felt.one Felt.one)
    (by
      -- the old leaf is the modified one
      rw [hkeys]
      ext i
      refine ⟨fun h => h.elim .inl fun h => absurd h.1 (Set.notMem_empty i),
        fun h => h.elim .inl fun h => ?_⟩
      obtain ⟨hi, hnone⟩ := h
      have hdel := hnone firstLeaf (Set.mem_singleton_iff.mp hi).symm
      rw [hM] at hdel
      cases hdel)
    ⟨firstLeaf.val, .inl ⟨firstLeaf, rfl, hM⟩⟩

end Create

/-! ## One entry per index

Every node the recursion writes goes in with `HashMap::insert`, over a bottom layer collected into a
map, so the map `create` returns has one entry per index, whatever it is given
(`create_keysNodup`).  Each function keeps it, the two recursions by induction on the fuel. -/

/-- The map of the skeleton has one entry per index. -/
def UpdatedSkeletonTreeImpl.KeysNodup (self : UpdatedSkeletonTreeImpl) : Prop :=
  (self.skeletonTree.map Prod.fst).Nodup

section Nodup

variable {self self' : UpdatedSkeletonTreeImpl}

theorem UpdatedSkeletonTreeImpl.KeysNodup.insert (h : self.KeysNodup) (k : NodeIndex)
    (node : UpdatedSkeletonNode) : KeysNodup ⟨(self.skeletonTree.insert k node).2⟩ :=
  HashMap.nodup_insert h k node

theorem finalizeChild_keysNodup {c : NodeIndex} {node : TempSkeletonNode}
    (h : finalizeChild self c node = some self') (hs : self.KeysNodup) : self'.KeysNodup := by
  cases node with
  | leaf =>
    simp only [finalizeChild] at h
    split at h <;> cases h
    exact hs
  | empty => cases h
  | original node =>
    cases node with
    | binary => cases h; exact hs.insert _ _
    | edge p => cases h; exact hs.insert _ _
    | unmodifiedSubTree => cases h; exact hs

theorem nodeFromEdgeData_keysNodup {p : PathToBottom} {b : NodeIndex} {bottom r : TempSkeletonNode}
    (h : nodeFromEdgeData self p b bottom = some (self', r)) (hs : self.KeysNodup) :
    self'.KeysNodup := by
  cases bottom with
  | empty => cases h; exact hs
  | leaf =>
    simp only [nodeFromEdgeData] at h
    split at h <;> cases h
    exact hs
  | original node =>
    cases node with
    | binary => cases h; exact hs.insert _ _
    | edge q =>
      -- two edges in a row: only the path changes
      obtain ⟨_, -, h⟩ := Option.map_eq_some_iff.mp h
      cases h
      exact hs
    | unmodifiedSubTree => cases h; exact hs

theorem nodeFromBinaryData_keysNodup {n : NodeIndex} {left right r : TempSkeletonNode}
    (h : nodeFromBinaryData self n left right = some (self', r)) (hs : self.KeysNodup) :
    self'.KeysNodup := by
  obtain ⟨⟨c₀, c₁⟩, hchildren, -⟩ := Option.bind_eq_some_iff.mp h
  rw [nodeFromBinaryData_eq hchildren] at h
  split_ifs at h
  · -- both children are written
    obtain ⟨self₀, h₀, h⟩ := Option.bind_eq_some_iff.mp h
    obtain ⟨self₁, h₁, h⟩ := Option.map_eq_some_iff.mp h
    cases h
    exact finalizeChild_keysNodup h₁ (finalizeChild_keysNodup h₀ hs)
  · exact nodeFromEdgeData_keysNodup h hs
  · exact nodeFromEdgeData_keysNodup h hs

theorem updateNodeInEmptyTree_keysNodup {fuel : Nat} {n : NodeIndex} {S : SortedLeafIndices}
    {r : TempSkeletonNode} (h : updateNodeInEmptyTree fuel self n S = some (self', r))
    (hs : self.KeysNodup) : self'.KeysNodup := by
  induction fuel generalizing self self' n S r with
  | zero => cases h
  | succ fuel ih =>
    rw [updateNodeInEmptyTree] at h
    by_cases hleaf : n.isLeaf = true
    · -- a leaf: the map is as it was
      rw [if_pos hleaf] at h
      split_ifs at h
      · cases h; exact hs
      · cases h; exact hs
    · rw [if_neg hleaf] at h
      split at h
      · cases h
      · -- leaves on both sides
        obtain ⟨⟨S₀, S₁⟩, -, h⟩ := Option.bind_eq_some_iff.mp h
        obtain ⟨⟨c₀, c₁⟩, -, h⟩ := Option.bind_eq_some_iff.mp h
        obtain ⟨⟨self₀, r₀⟩, h₀, h⟩ := Option.bind_eq_some_iff.mp h
        obtain ⟨⟨self₁, r₁⟩, h₁, h⟩ := Option.bind_eq_some_iff.mp h
        exact nodeFromBinaryData_keysNodup h (ih h₁ (ih h₀ hs))
      · -- an edge down to where they part
        obtain ⟨p, -, h⟩ := Option.bind_eq_some_iff.mp h
        obtain ⟨b, -, h⟩ := Option.bind_eq_some_iff.mp h
        obtain ⟨⟨self₀, r₀⟩, h₀, h⟩ := Option.bind_eq_some_iff.mp h
        exact nodeFromEdgeData_keysNodup h (ih h₀ hs)


theorem updateEdgeNode_keysNodup {f g} {n : NodeIndex} {p : PathToBottom}
    {O O' : OriginalSkeletonNodeMap} {S : SortedLeafIndices} {r : TempSkeletonNode}
    (hf : ∀ {self self' n O S O' r}, f self n O S = some (self', O', r) → self.KeysNodup →
      self'.KeysNodup)
    (hg : ∀ {self self' n S r}, g self n S = some (self', r) → self.KeysNodup → self'.KeysNodup)
    (h : updateEdgeNode f g self n p O S = some (self', O', r)) (hs : self.KeysNodup) :
    self'.KeysNodup := by
  obtain ⟨⟨c₀, c₁⟩, -, h⟩ := Option.bind_eq_some_iff.mp h
  dsimp only at h
  obtain ⟨⟨S₀, S₁⟩, -, h⟩ := Option.bind_eq_some_iff.mp h
  dsimp only at h
  obtain ⟨w, -, h⟩ := Option.bind_eq_some_iff.mp h
  by_cases hside : (!S₁.isEmpty && w || !S₀.isEmpty && !w) = true
  · rw [if_pos hside] at h
    -- whichever side the edge goes and whether its rest is faked, the same three calls
    split_ifs at h <;> dsimp only at h
    all_goals
      obtain ⟨O₁, -, h⟩ := Option.bind_eq_some_iff.mp h
      obtain ⟨⟨self₁, O₂, r₀⟩, h₁, h⟩ := Option.bind_eq_some_iff.mp h
      obtain ⟨⟨self₂, r₁⟩, h₂, h⟩ := Option.bind_eq_some_iff.mp h
      obtain ⟨⟨self₃, node⟩, h₃, h⟩ := Option.bind_eq_some_iff.mp h
      cases h
      exact nodeFromBinaryData_keysNodup h₃ (hg h₂ (hf h₁ hs))
  · rw [if_neg hside] at h
    obtain ⟨pathToLeavesLca, -, h⟩ := Option.bind_eq_some_iff.mp h
    obtain ⟨leavesLcaIndex, -, h⟩ := Option.bind_eq_some_iff.mp h
    obtain ⟨bottomIndex, -, h⟩ := Option.bind_eq_some_iff.mp h
    obtain ⟨pathToNewBottom, -, h⟩ := Option.bind_eq_some_iff.mp h
    obtain ⟨newBottomIndex, -, h⟩ := Option.bind_eq_some_iff.mp h
    -- below the root and the new bottom, one call and the edge
    split_ifs at h
    all_goals
      obtain ⟨O₁, -, h⟩ := Option.bind_eq_some_iff.mp h
      obtain ⟨⟨self₁, O₂, bottom⟩, h₁, h⟩ := Option.bind_eq_some_iff.mp h
      obtain ⟨⟨self₂, node⟩, h₂, h⟩ := Option.bind_eq_some_iff.mp h
      cases h
      exact nodeFromEdgeData_keysNodup h₂ (hf h₁ hs)

theorem updateNodeInNonemptyTree_keysNodup {fuel : Nat} {n : NodeIndex}
    {O O' : OriginalSkeletonNodeMap} {S : SortedLeafIndices} {r : TempSkeletonNode}
    (h : updateNodeInNonemptyTree fuel self n O S = some (self', O', r)) (hs : self.KeysNodup) :
    self'.KeysNodup := by
  induction fuel generalizing self self' n O S O' r with
  | zero => cases h
  | succ fuel ih =>
    rw [updateNodeInNonemptyTree] at h
    by_cases hleaf : (n.isLeaf && S.contains n) = true
    · -- a modified leaf: the map is as it was
      rw [if_pos hleaf] at h
      split_ifs at h <;> cases h <;> exact hs
    rw [if_neg hleaf] at h
    split at h
    · cases h
    by_cases hS : S.isEmpty = true
    · -- no modified leaf below: the original node, as it was
      rw [if_pos hS] at h
      split at h <;> cases h <;> exact hs
    rw [if_neg hS] at h
    split at h
    · cases h
    · -- a binary node: the two calls, then the node
      obtain ⟨⟨S₀, S₁⟩, -, h⟩ := Option.bind_eq_some_iff.mp h
      obtain ⟨⟨c₀, c₁⟩, -, h⟩ := Option.bind_eq_some_iff.mp h
      obtain ⟨⟨self₀, O₀, r₀⟩, h₀, h⟩ := Option.bind_eq_some_iff.mp h
      obtain ⟨⟨self₁, O₁, r₁⟩, h₁, h⟩ := Option.bind_eq_some_iff.mp h
      obtain ⟨⟨self₂, node⟩, h₂, h⟩ := Option.bind_eq_some_iff.mp h
      cases h
      exact nodeFromBinaryData_keysNodup h₂ (ih h₁ (ih h₀ hs))
    · exact updateEdgeNode_keysNodup ih updateNodeInEmptyTree_keysNodup h hs

theorem finalizeMiddleLayers_keysNodup {fuel : Nat} {O : OriginalSkeletonTreeImpl}
    {r : TempSkeletonNode} (h : finalizeMiddleLayers fuel self O = some (self', r))
    (hs : self.KeysNodup) : self'.KeysNodup := by
  unfold finalizeMiddleLayers at h
  split_ifs at h
  · exact updateNodeInEmptyTree_keysNodup h hs
  · obtain ⟨⟨self₁, O₁, r₁⟩, h₁, h⟩ := Option.map_eq_some_iff.mp h
    cases h
    exact updateNodeInNonemptyTree_keysNodup h₁ hs

/-- **`create` keeps one entry per index**, whatever it is given: every node goes in with an
insert, on top of a bottom layer collected into a map. -/
theorem create_keysNodup {fuel : Nat} {O : OriginalSkeletonTreeImpl}
    {M : LeafModifications SkeletonLeaf} (h : create fuel O M = some (.ok self)) :
    self.KeysNodup := by
  unfold create at h
  by_cases hM : M.isEmpty = true
  · -- no modification: the root alone
    rw [if_pos hM] at h
    unfold createUnmodified at h
    split at h <;> cases h
    exact List.nodup_singleton _
  rw [if_neg hM] at h
  dsimp only at h
  split at h
  · cases h
  rename_i self₁ r hmiddle
  have hs₁ : self₁.KeysNodup :=
    finalizeMiddleLayers_keysNodup hmiddle (HashMap.nodup_extend (m := []) List.nodup_nil _)
  split at h
  · split_ifs at h
    cases h
    exact hs₁
  · cases h
  · -- the root, written last
    split at h
    · cases h
    split at h
    · cases h
    rename_i heq
    cases h
    have := hs₁.insert root ‹_›
    rwa [heq] at this

end Nodup

end Sequencer.Patricia
