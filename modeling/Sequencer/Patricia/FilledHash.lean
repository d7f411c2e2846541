/-
# The root hash of the filled tree

`compute_filled_tree_rec` hashes the trie the updated skeleton spells: down from the root it
computes every node the skeleton has and takes the hash an unmodified subtree carries as it is.
Where the stored trie was hashed by the same `TreeHashFunction`, the hash it returns is the hash
of a trie hashed by it throughout (`Trie.HashedBy`), of the shape the skeleton spells, that holds
the modified leaves and the old ones elsewhere; each node it computes is written into its
placeholder, and nothing else is written (`computeFilledTreeRec_spec`).

A canonical trie hashed by the hash function is determined by its leaves
(`HashedBy.eq_of_leafAt`), so a set of leaves has one root hash (`IsRootHash.unique`).  From the
skeleton `create` builds, `create_with_existing_leaves` returns it
(`createWithExistingLeaves_spec`).
-/
import Sequencer.Patricia.FilledTree
import Sequencer.Patricia.UpdatedCreate

namespace Sequencer.Patricia

open HeapIndex NodeIndex

variable {L : Type}

/-! ## 1. The leaves of a shape, and the nodes of a trie -/

namespace Shape

/-- The leaf indices of a shape at index `n`. -/
def keys : Shape → Nat → Set Nat
  | binary left right, n => left.keys (2 * n) ∪ right.keys (2 * n + 1)
  | edge pathToBottom bottom, n => bottom.keys (pathToBottom.bottomValue n)
  | leaf, n => {n}

variable {s : Shape} {n : Nat} {K : Set Nat}

/-- A canonical shape has the leaves it is the canonical trie of. -/
theorem IsCanonical.keys_eq (h : IsCanonical s n K) : s.keys n = K := by
  induction h with
  | leaf => rfl
  | binary _ _ _ ih₀ ih₁ => rw [keys, ih₀, ih₁]
  | edge _ _ _ _ ih => exact ih

end Shape

namespace Trie

theorem keys_shape (t : Trie L) (n : Nat) : t.shape.keys n = t.keys n := by
  induction t generalizing n with
  | binary hash left right ihl ihr => rw [shape, Shape.keys, ihl, ihr, keys_binary]
  | edge hash pathToBottom bottom ih => rw [shape, Shape.keys, ih, keys_edge]
  | leaf hash data => rw [shape, Shape.keys, keys_leaf]

/-- A trie of a canonical shape sits in place and is canonical. -/
theorem wf_of_isCanonical {s : Shape} {n : Nat} {K : Set Nat} (h : s.IsCanonical n K) :
    ∀ {t : Trie L}, t.shape = s → t.WF n ∧ t.Canonical := by
  induction h with
  | leaf hsize =>
    intro t ht
    cases t with
    | leaf => exact ⟨hsize, trivial⟩
    | binary | edge => cases ht
  | binary hlt _ _ ih₀ ih₁ =>
    intro t ht
    cases t with
    | binary hash left right =>
      obtain ⟨hl, hr⟩ := Shape.binary.inj ht
      exact ⟨⟨hlt, (ih₀ hl).1, (ih₁ hr).1⟩, (ih₀ hl).2, (ih₁ hr).2⟩
    | edge | leaf => cases ht
  | edge hpos hlength hb _ ih =>
    intro t ht
    cases t with
    | edge hash pathToBottom bottom =>
      obtain ⟨rfl, hbottom⟩ := Shape.edge.inj ht
      refine ⟨⟨hpos, hlength, (ih hbottom).1⟩, ?_, (ih hbottom).2⟩
      rw [← isEdge_shape, hbottom, hb]
    | binary | leaf => cases ht

/-- A leaf of a canonical trie in place is on the last level, an index of the tree. -/
theorem le_max_of_leafAt {t : Trie L} {n i : Nat} (hn : n ≠ 0) (hwf : t.WF n)
    (hc : t.Canonical) (hi : (t.leafAt n i).isSome) : i ≤ NodeIndex.max := by
  have hsize := ((isCanonical_shape hwf hc).mem hn hi).2
  exact le_max_of_lt (hsize ▸ Nat.lt_size_self i)

/-- Below the index of one of its nodes, a trie holds what that node holds. -/
theorem leafAt_of_subtreeAt {t sub : Trie L} {n m i : Nat} (hn : n ≠ 0)
    (hsub : t.subtreeAt n m = some sub) (hi : IsAncestor m i) : t.leafAt n i = sub.leafAt m i := by
  induction t generalizing n with
  | binary hash left right ihl ihr =>
    by_cases hm : m = n
    · subst hm
      rw [subtreeAt_self, Option.some.injEq] at hsub
      rw [hsub]
    rw [subtreeAt, if_neg hm] at hsub
    cases hl : left.subtreeAt (2 * n) m with
    | some sub' =>
      -- the node is on the left
      rw [hl, Option.some_or, Option.some.injEq] at hsub
      subst hsub
      have hm' : IsAncestor (2 * n) m := by
        by_contra h
        rw [subtreeAt_of_not_isAncestor _ (by omega) h] at hl
        cases hl
      rw [leafAt_binary_of_left hn (hm'.trans hi)]
      exact ihl (by omega) hl
    | none =>
      rw [hl, Option.none_or] at hsub
      have hm' : IsAncestor (2 * n + 1) m := by
        by_contra h
        rw [subtreeAt_of_not_isAncestor _ (by omega) h] at hsub
        cases hsub
      rw [leafAt_binary_of_right hn (hm'.trans hi)]
      exact ihr (by omega) hsub
  | edge hash pathToBottom bottom ih =>
    by_cases hm : m = n
    · subst hm
      rw [subtreeAt_self, Option.some.injEq] at hsub
      rw [hsub]
    rw [subtreeAt_edge_of_ne hm] at hsub
    exact ih (bottomValue_ne_zero hn pathToBottom) hsub
  | leaf hash data =>
    by_cases hm : m = n
    · subst hm
      rw [subtreeAt_self, Option.some.injEq] at hsub
      rw [hsub]
    · rw [subtreeAt, if_neg hm] at hsub
      cases hsub

/-! ## 2. Tries hashed by the hash function -/

section Hashed

variable [TreeHashFunction L]

/-- Every node of the trie carries the hash `compute_node_hash` gives its data. -/
def HashedBy : Trie L → Prop
  | binary hash left right =>
    hash = TreeHashFunction.computeNodeHash (.binary ⟨left.hash, right.hash⟩ : NodeData L) ∧
      left.HashedBy ∧ right.HashedBy
  | edge hash pathToBottom bottom =>
    hash = TreeHashFunction.computeNodeHash (.edge ⟨bottom.hash, pathToBottom⟩ : NodeData L) ∧
      bottom.HashedBy
  | leaf hash data => hash = TreeHashFunction.computeNodeHash (.leaf data)

/-- Each node of a trie hashed by the hash function is. -/
theorem HashedBy.subtreeAt {t sub : Trie L} {n m : Nat} (h : t.HashedBy)
    (hsub : t.subtreeAt n m = some sub) : sub.HashedBy := by
  induction t generalizing n with
  | binary hash left right ihl ihr =>
    rw [Trie.subtreeAt] at hsub
    split at hsub
    · cases hsub
      exact h
    · cases hl : left.subtreeAt (2 * n) m with
      | some sub' =>
        rw [hl, Option.some_or, Option.some.injEq] at hsub
        subst hsub
        exact ihl h.2.1 hl
      | none =>
        rw [hl, Option.none_or] at hsub
        exact ihr h.2.2 hsub
  | edge hash pathToBottom bottom ih =>
    rw [Trie.subtreeAt] at hsub
    split at hsub
    · cases hsub
      exact h
    · exact ih h.2 hsub
  | leaf hash data =>
    rw [Trie.subtreeAt] at hsub
    split at hsub
    · cases hsub
      exact h
    · cases hsub

/-- **A trie hashed by the hash function is determined by its shape and its leaves**: its
hashes are. -/
theorem HashedBy.eq_of_leafAt {t t' : Trie L} {n : Nat} (hn : n ≠ 0) (h : t.HashedBy)
    (h' : t'.HashedBy) (hshape : t.shape = t'.shape) (hleaf : ∀ i, t.leafAt n i = t'.leafAt n i) :
    t = t' := by
  induction t generalizing t' n with
  | binary hash left right ihl ihr =>
    cases t' with
    | binary hash' left' right' =>
      obtain ⟨hl, hr⟩ := Shape.binary.inj hshape
      -- each child holds what the node holds below it
      have hleft : left = left' := ihl (n := 2 * n) (by omega) h.2.1 h'.2.1 hl fun i => by
        by_cases hi : IsAncestor (2 * n) i
        · have h₁ : (binary hash left right).leafAt n i = left.leafAt (2 * n) i :=
            leafAt_binary_of_left hn hi
          have h₂ : (binary hash' left' right').leafAt n i = left'.leafAt (2 * n) i :=
            leafAt_binary_of_left hn hi
          rw [← h₁, ← h₂, hleaf]
        · rw [leafAt_eq_none_of_not_isAncestor _ (by omega) hi,
            leafAt_eq_none_of_not_isAncestor _ (by omega) hi]
      have hright : right = right' := ihr (n := 2 * n + 1) (by omega) h.2.2 h'.2.2 hr fun i => by
        by_cases hi : IsAncestor (2 * n + 1) i
        · have h₁ : (binary hash left right).leafAt n i = right.leafAt (2 * n + 1) i :=
            leafAt_binary_of_right hn hi
          have h₂ : (binary hash' left' right').leafAt n i = right'.leafAt (2 * n + 1) i :=
            leafAt_binary_of_right hn hi
          rw [← h₁, ← h₂, hleaf]
        · rw [leafAt_eq_none_of_not_isAncestor _ (by omega) hi,
            leafAt_eq_none_of_not_isAncestor _ (by omega) hi]
      subst hleft hright
      rw [h.1, h'.1]
    | edge | leaf => cases hshape
  | edge hash pathToBottom bottom ih =>
    cases t' with
    | edge hash' pathToBottom' bottom' =>
      obtain ⟨rfl, hb⟩ := Shape.edge.inj hshape
      have hbottom : bottom = bottom' :=
        ih (bottomValue_ne_zero hn pathToBottom) h.2 h'.2 hb fun i => hleaf i
      subst hbottom
      rw [h.1, h'.1]
    | binary | leaf => cases hshape
  | leaf hash data =>
    cases t' with
    | leaf hash' data' =>
      have hdata : some data = some data' := by simpa [leafAt] using hleaf n
      cases hdata
      rw [h, h']
    | binary | edge => cases hshape

end Hashed

end Trie

/-! ## 3. The root hash of a set of leaves -/

/-- The leaf at index `j` after the modifications: a modified leaf unless it is empty, and
otherwise the leaf the trie had. -/
def updatedLeafAt [FilledLeaf L] (T : Option (Trie L)) (leafModifications : LeafModifications L)
    (j : NodeIndex) : Option L :=
  match leafModifications.get j with
  | some leaf => if FilledLeaf.isEmpty leaf then none else some leaf
  | none => T.bind fun t => t.leafAt root.val j.val

/-- Two canonical tries in place with the same leaves at every index have the same leaves. -/
theorem Trie.leafAt_eq_of_nodeIndex {t t' : Trie L} (hwf : t.WF root.val) (hc : t.Canonical)
    (hwf' : t'.WF root.val) (hc' : t'.Canonical)
    (h : ∀ j : NodeIndex, t.leafAt root.val j.val = t'.leafAt root.val j.val) (i : Nat) :
    t.leafAt root.val i = t'.leafAt root.val i := by
  by_cases hi : i ≤ NodeIndex.max
  · exact h ⟨i, hi⟩
  · -- beyond the last index, neither holds a leaf
    have hnone : ∀ {u : Trie L}, u.WF root.val → u.Canonical → u.leafAt root.val i = none :=
      fun hwfu hcu => Option.not_isSome_iff_eq_none.mp fun hs =>
        hi (Trie.le_max_of_leafAt (by decide) hwfu hcu hs)
    rw [hnone hwf hc, hnone hwf' hc']

section RootHash

variable [TreeHashFunction L]

/-- `rootHash` is the root hash of the leaves `X`: the hash of the empty tree when there is no
leaf, and otherwise the hash of their canonical trie, hashed by the hash function. -/
def IsRootHash (X : NodeIndex → Option L) (rootHash : Felt) : Prop :=
  (∀ j, X j = none) ∧ rootHash = Felt.zero ∨
    ∃ t : Trie L, t.WF root.val ∧ t.Canonical ∧ t.HashedBy ∧
      (∀ j : NodeIndex, t.leafAt root.val j.val = X j) ∧ t.hash = rootHash

/-- **A set of leaves has one root hash.** -/
theorem IsRootHash.unique {X : NodeIndex → Option L} {h h' : Felt} (hX : IsRootHash X h)
    (hX' : IsRootHash X h') : h = h' := by
  -- a trie holds a leaf, at an index of the tree
  have hleaf : ∀ {t : Trie L}, t.WF root.val → t.Canonical →
      (∀ j : NodeIndex, t.leafAt root.val j.val = X j) → ∃ j, X j ≠ none := by
    intro t hwf hc hleaves
    obtain ⟨i, hi⟩ := (Trie.isCanonical_shape hwf hc).nonempty
    refine ⟨⟨i, Trie.le_max_of_leafAt (by decide) hwf hc hi⟩, ?_⟩
    rw [← hleaves]
    exact Option.isSome_iff_ne_none.mp hi
  rcases hX with ⟨hnone, rfl⟩ | ⟨t, hwf, hc, hh, hleaves, rfl⟩ <;>
    rcases hX' with ⟨hnone', rfl⟩ | ⟨t', hwf', hc', hh', hleaves', rfl⟩
  · rfl
  · obtain ⟨j, hj⟩ := hleaf hwf' hc' hleaves'
    exact absurd (hnone j) hj
  · obtain ⟨j, hj⟩ := hleaf hwf hc hleaves
    exact absurd (hnone' j) hj
  · -- one set of leaves, so one canonical shape, so one trie
    have hsame := Trie.leafAt_eq_of_nodeIndex hwf hc hwf' hc'
      fun j => (hleaves j).trans (hleaves' j).symm
    have hkeys : t.keys root.val = t'.keys root.val := by
      ext i
      simp only [Trie.keys, Set.mem_ofPred_eq, hsame i]
    have hshape := (Trie.isCanonical_shape hwf hc).unique (by decide)
      (Trie.isCanonical_shape hwf' hc') hkeys
    rw [hh.eq_of_leafAt (by decide) hh' hshape hsame]

end RootHash

/-! ## 4. The output maps -/

/-- The nodes the filled tree computes: all but the unmodified subtrees. -/
def UpdatedSkeletonNode.isComputed : UpdatedSkeletonNode → Bool
  | .unmodifiedSubTree _ => false
  | .binary | .edge _ | .leaf => true

namespace FilledTreeImpl

section OutputMap

variable {V : Type}

/-- An empty slot is filled. -/
theorem writeToOutputMap_of_get {F : HashMap NodeIndex (Option V)} {k : NodeIndex}
    (h : F.get k = some none) (v : V) : writeToOutputMap F k v = .ok (F.insert k (some v)).2 := by
  simp [writeToOutputMap, h]

/-- The placeholders: an empty slot wherever the skeleton has a node the filled tree computes. -/
theorem get_initializeFilledTreeOutputMapWithPlaceholders (U : UpdatedSkeletonNodeMap)
    (k : NodeIndex) :
    (initializeFilledTreeOutputMapWithPlaceholders (L := L) ⟨U⟩).get k =
      if U.any fun e => e.1 == k && e.2.isComputed then some none else none := by
  unfold initializeFilledTreeOutputMapWithPlaceholders
  rw [show (none : Option (Option (FilledNode L))) = HashMap.get [] k from rfl]
  generalize ([] : HashMap NodeIndex (Option (FilledNode L))) = F
  -- the fold over the entries, from any map
  induction U generalizing F with
  | nil => simp
  | cons e U ih =>
    obtain ⟨k', node⟩ := e
    rw [List.foldl_cons, ih, List.any_cons]
    by_cases hany : (U.any fun e => e.1 == k && e.2.isComputed) = true
    · simp only [hany, Bool.or_true, if_true]
    · -- the slot of `k` is as the one entry leaves it
      simp only [hany, Bool.or_false, Bool.false_eq_true, if_false]
      by_cases hk : k' = k
      · subst hk
        cases node <;> simp [UpdatedSkeletonNode.isComputed]
      · cases node <;> simp [UpdatedSkeletonNode.isComputed, hk, Ne.symm hk]

theorem nodup_initializeFilledTreeOutputMapWithPlaceholders (U : UpdatedSkeletonNodeMap) :
    ((initializeFilledTreeOutputMapWithPlaceholders (L := L) ⟨U⟩).map Prod.fst).Nodup := by
  unfold initializeFilledTreeOutputMapWithPlaceholders
  have h : (([] : HashMap NodeIndex (Option (FilledNode L))).map Prod.fst).Nodup := List.nodup_nil
  generalize ([] : HashMap NodeIndex (Option (FilledNode L))) = F at h
  induction U generalizing F with
  | nil => exact h
  | cons e U ih =>
    obtain ⟨k', node⟩ := e
    rw [List.foldl_cons]
    apply ih
    cases node
    all_goals first | exact h | exact HashMap.nodup_insert h _ _

/-- With every slot filled, no placeholder panics. -/
theorem removeArcMutexAndOptionFromOutputMap_isSome {F : HashMap NodeIndex (Option V)}
    (h : ∀ e ∈ F, e.2.isSome) (panicIfEmptyPlaceholder : Bool) :
    (removeArcMutexAndOptionFromOutputMap F panicIfEmptyPlaceholder).isSome := by
  unfold removeArcMutexAndOptionFromOutputMap
  generalize ([] : HashMap NodeIndex V) = R
  induction F generalizing R with
  | nil => rfl
  | cons e F ih =>
    obtain ⟨k, v⟩ := e
    obtain ⟨v, rfl⟩ := Option.isSome_iff_exists.mp (h _ List.mem_cons_self)
    exact ih (fun e he => h e (List.mem_cons_of_mem _ he)) _

end OutputMap

end FilledTreeImpl

/-! ## 5. The recursion -/

section Fill

open FilledTreeImpl

/-- The slot of `k` holds the node the trie `t` at `m` has at `k`. -/
def NodeAt (t : Trie L) (m k : NodeIndex) (F : HashMap NodeIndex (Option (FilledNode L))) : Prop :=
  ∃ sub, t.subtreeAt m.val k.val = some sub ∧ F.get k = some (some sub.filledNode)

/-- Below `m`, each node the filled tree computes has an empty slot. -/
def Placeholders (U : UpdatedSkeletonNodeMap) (m : NodeIndex)
    (F : HashMap NodeIndex (Option (FilledNode L))) : Prop :=
  ∀ k node, IsAncestor m.val k.val → U.get k = some node → node.isComputed = true →
    F.get k = some none

variable {T : Option (Trie L)} {U : UpdatedSkeletonNodeMap} {m k : NodeIndex} {t : Trie L}
  {F F' : HashMap NodeIndex (Option (FilledNode L))}

theorem NodeAt.isAncestor (h : NodeAt t m k F) (hroot : root ≤ m) : IsAncestor m.val k.val := by
  by_contra hk
  obtain ⟨sub, hsub, -⟩ := h
  rw [t.subtreeAt_of_not_isAncestor (Nat.pos_iff_ne_zero.mp hroot) hk] at hsub
  cases hsub

theorem NodeAt.of_get_eq (h : NodeAt t m k F) (hk : F'.get k = F.get k) : NodeAt t m k F' := by
  obtain ⟨sub, hsub, hget⟩ := h
  exact ⟨sub, hsub, hk.trans hget⟩

/-- A node of a child is a node of its parent. -/
theorem NodeAt.up {c : NodeIndex} {t' : Trie L} (h : NodeAt t c k F)
    (hsub : t'.subtreeAt m.val k.val = t.subtreeAt c.val k.val) : NodeAt t' m k F := by
  obtain ⟨sub, hsub', hget⟩ := h
  exact ⟨sub, hsub.trans hsub', hget⟩

/-- Below a child, nothing is the parent. -/
theorem NodeAt.ne_of_child {c : NodeIndex} (h : NodeAt t c k F) (hroot : root ≤ m)
    (hc : c.val = 2 * m.val ∨ c.val = 2 * m.val + 1) : k ≠ m :=
  ne_of_isAncestor_of_size_lt
    (h.isAncestor (root_le_of_isAncestor hroot (isAncestor_child hroot hc)))
    (by rw [size_child hroot hc]; omega)

/-- The slot of `m`, once the node of `t` is written into it. -/
theorem NodeAt.insert_self (t : Trie L) (m : NodeIndex)
    (F : HashMap NodeIndex (Option (FilledNode L))) :
    NodeAt t m m (F.insert m (some t.filledNode)).2 :=
  ⟨t, Trie.subtreeAt_self _ _, by rw [HashMap.get_insert, if_pos rfl]⟩

/-- A write into another slot keeps the node of a slot. -/
theorem NodeAt.insert_of_ne {m' : NodeIndex} {v : Option (FilledNode L)} (h : NodeAt t m k F)
    (hk : k ≠ m') : NodeAt t m k (F.insert m' v).2 :=
  h.of_get_eq (by rw [HashMap.get_insert, if_neg hk])

theorem Placeholders.mono {c : NodeIndex} (h : Placeholders U m F) (hmc : IsAncestor m.val c.val) :
    Placeholders U c F :=
  fun k node hk => h k node (hmc.trans hk)

theorem Placeholders.congr (h : Placeholders U m F)
    (hF : ∀ k : NodeIndex, IsAncestor m.val k.val → F'.get k = F.get k) : Placeholders U m F' :=
  fun k node hk hnode hc => (hF k hk).trans (h k node hk hnode hc)

/-- The map the filled tree starts from has an empty slot for each node it computes. -/
theorem placeholders_initializeFilledTreeOutputMapWithPlaceholders
    (hnodup : (U.map Prod.fst).Nodup) (m : NodeIndex) :
    Placeholders U m
      (FilledTreeImpl.initializeFilledTreeOutputMapWithPlaceholders (L := L) ⟨U⟩) := by
  intro k node _ hnode hc
  have hmem : (k, node) ∈ U := (IndexMap.lookup_eq_some_iff_mem hnodup).mp hnode
  rw [FilledTreeImpl.get_initializeFilledTreeOutputMapWithPlaceholders,
    if_pos (List.any_eq_true.mpr ⟨(k, node), hmem, by simp [hc]⟩)]

/-- From a leaf or an unmodified subtree, the skeleton reaches nothing further. -/
theorem Reaches.eq_of_not_isInner (h : Reaches U m k)
    (hm : ∀ node, U.get m = some node → node.isInner = false) : k = m := by
  cases h with
  | refl => rfl
  | binary hget _ _ => cases hm _ hget
  | edge hget _ _ => cases hm _ hget

variable [FilledLeaf L] [TreeHashFunction L]

/-- What a call at `m` has done when it returns the hash of the trie `t`: `t` has the shape the
skeleton spells, is hashed by the hash function and holds the updated leaves; each slot the call
changed holds the node `t` has there, and each node it computes is in its slot. -/
structure Hashes (T : Option (Trie L)) (lm : LeafModifications L) (U : UpdatedSkeletonNodeMap)
    (m : NodeIndex) (s : Shape) (F F' : HashMap NodeIndex (Option (FilledNode L))) (t : Trie L) :
    Prop where
  shape : t.shape = s
  hashed : t.HashedBy
  leaves : ∀ j leaf, t.leafAt m.val j.val = some leaf → updatedLeafAt T lm j = some leaf
  writes : ∀ k, F'.get k ≠ F.get k → NodeAt t m k F'
  fills : ∀ k node, Reaches U m k → U.get k = some node → node.isComputed = true → NodeAt t m k F'
  nodup : (F.map Prod.fst).Nodup → (F'.map Prod.fst).Nodup

/-- With `fuel`, the call at `m` hashes a trie of shape `s` from any state with the placeholders
below `m`. -/
def FillSpec (T : Option (Trie L)) (lm : LeafModifications L) (U : UpdatedSkeletonNodeMap)
    (m : NodeIndex) (s : Shape) (fuel : Nat) : Prop :=
  ∀ st : FillState L, Placeholders U m st.filledTreeOutputMap →
    ∃ t F', computeFilledTreeRec fuel ⟨U⟩ m (some lm) st =
        some (.ok (t.hash, { st with filledTreeOutputMap := F' })) ∧
      Hashes T lm U m s st.filledTreeOutputMap F' t

variable {lm : LeafModifications L}

/-- A call at `m` changes no slot outside the subtree of `m`. -/
theorem Hashes.get_eq {s : Shape} (h : Hashes T lm U m s F F' t) (hroot : root ≤ m)
    (hk : ¬ IsAncestor m.val k.val) : F'.get k = F.get k := by
  by_contra hne
  exact hk ((h.writes k hne).isAncestor hroot)

/-- **A binary node**, from what the calls at its children did: the node is written last, into
the slot neither call touched. -/
theorem Hashes.binary {left right : NodeIndex} {sl sr : Shape} {tl tr : Trie L}
    {F₁ F₂ : HashMap NodeIndex (Option (FilledNode L))} {hash : Felt} (hroot : root ≤ m)
    (hget : U.get m = some .binary) (hl : left.val = 2 * m.val) (hr : right.val = 2 * m.val + 1)
    (hsl : Hashes T lm U left sl F F₁ tl) (hsr : Hashes T lm U right sr F₁ F₂ tr)
    (hhash : hash = TreeHashFunction.computeNodeHash (.binary ⟨tl.hash, tr.hash⟩ : NodeData L)) :
    Hashes T lm U m (.binary sl sr) F (F₂.insert m (some (Trie.binary hash tl tr).filledNode)).2
      (.binary hash tl tr) := by
  have hn : m.val ≠ 0 := Nat.pos_iff_ne_zero.mp hroot
  have hrl := root_le_of_isAncestor hroot (isAncestor_child hroot (.inl hl))
  have hrr := root_le_of_isAncestor hroot (isAncestor_child hroot (.inr hr))
  have hne : left ≠ right := fun h => by have := congrArg NodeIndex.val h; omega
  -- what the left call wrote, the right one left as it was
  have hkeep : ∀ k, NodeAt tl left k F₁ → NodeAt tl left k F₂ := fun k hk =>
    hk.of_get_eq (hsr.get_eq hrr (not_isAncestor_of_sibling hroot (.inl hl) (.inr hr) hne
      (hk.isAncestor hrl)))
  have hsubl : ∀ k, NodeAt tl left k F₂ →
      (Trie.binary hash tl tr).subtreeAt m.val k.val = tl.subtreeAt left.val k.val := fun k hk => by
    rw [Trie.subtreeAt_binary_of_left hn (hl ▸ hk.isAncestor hrl), hl]
  have hsubr : ∀ k, NodeAt tr right k F₂ →
      (Trie.binary hash tl tr).subtreeAt m.val k.val = tr.subtreeAt right.val k.val :=
    fun k hk => by
    rw [Trie.subtreeAt_binary_of_right hn (hr ▸ hk.isAncestor hrr), hr]
  have hself := NodeAt.insert_self (.binary hash tl tr) m F₂
  refine ⟨by rw [Trie.shape, hsl.shape, hsr.shape], ⟨hhash, hsl.hashed, hsr.hashed⟩,
    fun j leaf hj => ?_, fun k hk => ?_, fun k node hk hnode hc => ?_,
    fun h => HashMap.nodup_insert (hsr.nodup (hsl.nodup h)) _ _⟩
  · -- a leaf is on one side
    rcases Option.or_eq_some_iff.mp hj with hj | ⟨-, hj⟩
    · exact hsl.leaves j leaf (hl ▸ hj)
    · exact hsr.leaves j leaf (hr ▸ hj)
  · by_cases hkm : k = m
    · subst hkm
      exact hself
    have hm : (F₂.insert m (some (Trie.binary hash tl tr).filledNode)).2.get k = F₂.get k := by
      rw [HashMap.get_insert, if_neg hkm]
    rw [hm] at hk
    refine NodeAt.of_get_eq ?_ hm
    by_cases h₁ : F₂.get k = F₁.get k
    · have hk₁ := hsl.writes k (h₁ ▸ hk)
      exact (hkeep k hk₁).up (hsubl k (hkeep k hk₁))
    · have hk₂ := hsr.writes k h₁
      exact hk₂.up (hsubr k hk₂)
  · cases hk with
    | refl => exact hself
    | @binary _ c _ _ hcv hk =>
      rcases hcv with hcv | hcv
      · obtain rfl : c = left := NodeIndex.ext (hcv.trans hl.symm)
        have hk₂ := hkeep k (hsl.fills k node hk hnode hc)
        exact (hk₂.up (hsubl k hk₂)).insert_of_ne (hk₂.ne_of_child hroot (.inl hl))
      · obtain rfl : c = right := NodeIndex.ext (hcv.trans hr.symm)
        have hk₂ := hsr.fills k node hk hnode hc
        exact (hk₂.up (hsubr k hk₂)).insert_of_ne (hk₂.ne_of_child hroot (.inr hr))
    | edge hedge _ _ => rw [hget] at hedge; cases hedge

/-- **An edge**, from what the call at its bottom did: the edge is written last, above it. -/
theorem Hashes.edge {bottom : NodeIndex} {p : PathToBottom} {sb : Shape} {tb : Trie L}
    {F₁ : HashMap NodeIndex (Option (FilledNode L))} {hash : Felt} (hroot : root ≤ m)
    (hget : U.get m = some (.edge p)) (hb : bottom.val = p.bottomValue m.val) (hpos : 0 < p.length)
    (hsb : Hashes T lm U bottom sb F F₁ tb)
    (hhash : hash = TreeHashFunction.computeNodeHash (.edge ⟨tb.hash, p⟩ : NodeData L)) :
    Hashes T lm U m (.edge p sb) F (F₁.insert m (some (Trie.edge hash p tb).filledNode)).2
      (.edge hash p tb) := by
  have hrb := root_le_of_isAncestor hroot (isAncestor_bottom hroot hb)
  -- below the bottom, nothing is the top of the edge
  have hne : ∀ {k : NodeIndex} {t' : Trie L} {F'' : HashMap NodeIndex (Option (FilledNode L))},
      NodeAt t' bottom k F'' → k ≠ m := fun hk =>
    ne_of_isAncestor_of_size_lt (hk.isAncestor hrb) (by rw [size_bottom hroot hb]; omega)
  have hsub : ∀ {k : NodeIndex} {F'' : HashMap NodeIndex (Option (FilledNode L))},
      NodeAt tb bottom k F'' →
        (Trie.edge hash p tb).subtreeAt m.val k.val = tb.subtreeAt bottom.val k.val := fun hk => by
    rw [Trie.subtreeAt_edge_of_ne fun h => hne hk (NodeIndex.ext h), hb]
  have hself := NodeAt.insert_self (.edge hash p tb) m F₁
  refine ⟨by rw [Trie.shape, hsb.shape], ⟨hhash, hsb.hashed⟩,
    fun j leaf hj => hsb.leaves j leaf (hb ▸ hj), fun k hk => ?_, fun k node hk hnode hc => ?_,
    fun h => HashMap.nodup_insert (hsb.nodup h) _ _⟩
  · by_cases hkm : k = m
    · subst hkm
      exact hself
    have hm : (F₁.insert m (some (Trie.edge hash p tb).filledNode)).2.get k = F₁.get k := by
      rw [HashMap.get_insert, if_neg hkm]
    rw [hm] at hk
    have hk₁ := hsb.writes k hk
    exact (hk₁.up (hsub hk₁)).of_get_eq hm
  · cases hk with
    | refl => exact hself
    | binary hbin _ _ =>
      rw [hget] at hbin
      cases hbin
    | @edge _ b _ q hq hbq hk =>
      rw [hget, Option.some.injEq, UpdatedSkeletonNode.edge.injEq] at hq
      subst hq
      obtain rfl : b = bottom := NodeIndex.ext (hbq.trans hb.symm)
      have hk₁ := hsb.fills k node hk hnode hc
      exact (hk₁.up (hsub hk₁)).insert_of_ne (hne hk₁)

/-! ### One call, from the calls below it -/

theorem fillSpec_unmodifiedSubTree (hT : ∀ t ∈ T, t.HashedBy)
    (hunmod : ∀ k hash, U.get k = some (.unmodifiedSubTree hash) →
      ∀ j : NodeIndex, IsAncestor k.val j.val → lm.get j = none)
    {hash : Felt} (hroot : root ≤ m) (hget : U.get m = some (.unmodifiedSubTree hash))
    (ht : subtreeOf T m.val = some t) (hhash : t.hash = hash) (fuel : Nat) :
    FillSpec T lm U m t.shape (fuel + 1) := by
  intro st _
  refine ⟨t, st.filledTreeOutputMap, ?_, ?_⟩
  · have hnode : UpdatedSkeletonTreeImpl.getNode ⟨U⟩ m = .ok (.unmodifiedSubTree hash) := by
      simp [UpdatedSkeletonTreeImpl.getNode, hget]
    rw [computeFilledTreeRec_of_unmodified hnode, hhash]
  obtain ⟨tT, rfl, hsub⟩ : ∃ tT, T = some tT ∧ tT.subtreeAt root.val m.val = some t := by
    cases T with
    | none => cases ht
    | some tT => exact ⟨tT, rfl, ht⟩
  refine ⟨rfl, (hT tT rfl).subtreeAt hsub, fun j leaf hj => ?_, fun k hk => absurd rfl hk,
    fun k node hk hnode hc => ?_, id⟩
  · -- the leaves of an unmodified subtree are the old ones
    have hmj : IsAncestor m.val j.val := by
      by_contra h
      rw [t.leafAt_eq_none_of_not_isAncestor (Nat.pos_iff_ne_zero.mp hroot) h] at hj
      cases hj
    simp only [updatedLeafAt, hunmod m hash hget j hmj, Option.bind_some]
    rw [Trie.leafAt_of_subtreeAt (by decide) hsub hmj, hj]
  · -- the skeleton reaches nothing below it
    obtain rfl := hk.eq_of_not_isInner fun node' h' => by
      rw [hget, Option.some.injEq] at h'
      rw [← h']
      rfl
    rw [hget, Option.some.injEq] at hnode
    rw [← hnode] at hc
    cases hc

theorem fillSpec_leaf (hleaf : ∀ k, U.get k = some .leaf →
      ∃ leaf, lm.get k = some leaf ∧ FilledLeaf.isEmpty leaf = false)
    (hget : U.get m = some .leaf) (fuel : Nat) : FillSpec T lm U m .leaf (fuel + 1) := by
  intro st hplace
  obtain ⟨leaf, hlm, hne⟩ := hleaf m hget
  have hslot := hplace m .leaf (IsAncestor.refl _) hget rfl
  let t : Trie L := .leaf (TreeHashFunction.computeNodeHash (.leaf leaf)) leaf
  refine ⟨t, (st.filledTreeOutputMap.insert m (some t.filledNode)).2, ?_, ?_⟩
  · simp [computeFilledTreeRec, UpdatedSkeletonTreeImpl.getNode, hget, getOrComputeLeaf,
      Leaf.fromModifications, hlm, hne, writeToOutputMap_of_get hslot, t, Trie.filledNode,
      Trie.hash]
  have hself := NodeAt.insert_self t m st.filledTreeOutputMap
  refine ⟨rfl, rfl, fun j leaf' hj => ?_, fun k hk => ?_, fun k node hk hnode _ => ?_,
    fun h => HashMap.nodup_insert h _ _⟩
  · -- the one leaf is the modified one
    have hjm : j = m := by
      by_contra h
      have hval : j.val ≠ m.val := fun h' => h (NodeIndex.ext h')
      simp [t, Trie.leafAt, hval] at hj
    subst hjm
    simp only [t, Trie.leafAt, if_true, Option.some.injEq] at hj
    subst hj
    simp [updatedLeafAt, hlm, hne]
  · by_cases hkm : k = m
    · subst hkm
      exact hself
    · rw [HashMap.get_insert, if_neg hkm] at hk
      exact absurd rfl hk
  · obtain rfl := hk.eq_of_not_isInner fun node' h' => by
      rw [hget, Option.some.injEq] at h'
      rw [← h']
      rfl
    exact hself

theorem fillSpec_binary {left right : NodeIndex} {sl sr : Shape} {fuel : Nat} (hroot : root ≤ m)
    (hget : U.get m = some .binary) (hl : left.val = 2 * m.val) (hr : right.val = 2 * m.val + 1)
    (ihl : FillSpec T lm U left sl fuel) (ihr : FillSpec T lm U right sr fuel) :
    FillSpec T lm U m (.binary sl sr) (fuel + 1) := by
  intro st hplace
  have hml := isAncestor_child hroot (.inl hl)
  have hmr := isAncestor_child hroot (.inr hr)
  have hrl := root_le_of_isAncestor hroot hml
  have hrr := root_le_of_isAncestor hroot hmr
  have hne : left ≠ right := fun h => by have := congrArg NodeIndex.val h; omega
  -- the left task, then the right one on the maps the left one leaves
  obtain ⟨tl, F₁, hcl, hsl⟩ := ihl st (hplace.mono hml)
  obtain ⟨tr, F₂, hcr, hsr⟩ := ihr { st with filledTreeOutputMap := F₁ } ((hplace.mono hmr).congr
    fun k hk => hsl.get_eq hrl (not_isAncestor_of_sibling hroot (.inr hr) (.inl hl) hne.symm hk))
  -- neither touched the slot of `m`
  have hm : ∀ c : NodeIndex, (c.val = 2 * m.val ∨ c.val = 2 * m.val + 1) →
      ¬ IsAncestor c.val m.val := fun c hc h => by
    have := h.1
    rw [size_child hroot hc] at this
    omega
  have hslot : F₂.get m = some none := by
    rw [hsr.get_eq hrr (hm right (.inr hr)), hsl.get_eq hrl (hm left (.inl hl))]
    exact hplace m .binary (IsAncestor.refl _) hget rfl
  let hash := TreeHashFunction.computeNodeHash (.binary ⟨tl.hash, tr.hash⟩ : NodeData L)
  refine ⟨.binary hash tl tr, (F₂.insert m (some (Trie.binary hash tl tr).filledNode)).2, ?_,
    hsl.binary hroot hget hl hr hsr rfl⟩
  have hmul : m.mul ⟨2, two_le_max⟩ = some left :=
    NodeIndex.new_eq_some.mpr (show left.val = m.val * 2 by omega)
  have hadd : left.add root = some right := add_eq_some (show right.val = left.val + 1 by omega)
  simp [computeFilledTreeRec, UpdatedSkeletonTreeImpl.getNode, hget, hmul, hadd, hcl, hcr,
    awaitTask, writeToOutputMap_of_get hslot, Trie.filledNode, Trie.hash, hash]

theorem fillSpec_edge {bottom : NodeIndex} {p : PathToBottom} {sb : Shape} {fuel : Nat}
    (hroot : root ≤ m) (hget : U.get m = some (.edge p)) (hb : bottom.val = p.bottomValue m.val)
    (hpos : 0 < p.length) (ih : FillSpec T lm U bottom sb fuel) :
    FillSpec T lm U m (.edge p sb) (fuel + 1) := by
  intro st hplace
  have hmb := isAncestor_bottom hroot hb
  have hrb := root_le_of_isAncestor hroot hmb
  obtain ⟨tb, F₁, hc, hsb⟩ := ih st (hplace.mono hmb)
  -- the call at the bottom did not touch the slot of `m`
  have hslot : F₁.get m = some none := by
    rw [hsb.get_eq hrb fun h => by
      have := h.1
      rw [size_bottom hroot hb] at this
      omega]
    exact hplace m (.edge p) (IsAncestor.refl _) hget rfl
  let hash := TreeHashFunction.computeNodeHash (.edge ⟨tb.hash, p⟩ : NodeData L)
  refine ⟨.edge hash p tb, (F₁.insert m (some (Trie.edge hash p tb).filledNode)).2, ?_,
    hsb.edge hroot hget hb hpos rfl⟩
  have hbottom : PathToBottom.computeBottomIndex m p = some bottom := by
    have hle : m.val <<< p.length + p.path ≤ NodeIndex.max := by
      have := bottom.le_max
      rwa [hb] at this
    rw [PathToBottom.computeBottomIndex_of_le hle]
    exact congrArg some (NodeIndex.ext hb.symm)
  simp [computeFilledTreeRec, UpdatedSkeletonTreeImpl.getNode, hget, hbottom, hc,
    writeToOutputMap_of_get hslot, Trie.filledNode, Trie.hash, hash]

/-- **`compute_filled_tree_rec` hashes the trie the skeleton spells**: below a node from which the
skeleton spells a canonical shape, with enough fuel to reach the leaves and an empty slot for each
node it computes, the call returns the hash of a trie of that shape, hashed by the hash function
and holding the updated leaves, and writes each node it computes, and only those, into its slot.
The stored trie is hashed by the same function, the leaves of the skeleton are modified and not
empty, and no leaf is modified below an unmodified subtree. -/
theorem computeFilledTreeRec_spec (hT : ∀ t ∈ T, t.HashedBy)
    (hleaf : ∀ k, U.get k = some .leaf →
      ∃ leaf, lm.get k = some leaf ∧ FilledLeaf.isEmpty leaf = false)
    (hunmod : ∀ k hash, U.get k = some (.unmodifiedSubTree hash) →
      ∀ j : NodeIndex, IsAncestor k.val j.val → lm.get j = none)
    {s : Shape} (he : Expands T U m s) :
    ∀ {K : Set Nat}, s.IsCanonical m.val K → root ≤ m → ∀ fuel, 252 < Nat.size m.val + fuel →
      FillSpec T lm U m s fuel := by
  -- by induction on the shape the skeleton spells; each call goes one level down
  induction he with
  | @binary m left right sl sr hget hl hr _ _ ihl ihr =>
    intro K hc hroot fuel hfuel
    cases hc with
    | binary _ hcl hcr =>
      obtain ⟨fuel, rfl⟩ : ∃ f, fuel = f + 1 := ⟨fuel - 1, by have := size_le m; omega⟩
      have hsl := size_child hroot (.inl hl)
      have hsr := size_child hroot (.inr hr)
      exact fillSpec_binary hroot hget hl hr
        (ihl (hl ▸ hcl) (root_le_of_isAncestor hroot (isAncestor_child hroot (.inl hl))) fuel
          (by omega))
        (ihr (hr ▸ hcr) (root_le_of_isAncestor hroot (isAncestor_child hroot (.inr hr))) fuel
          (by omega))
  | @edge m bottom p sb hget hb _ ih =>
    intro K hc hroot fuel hfuel
    cases hc with
    | edge hpos _ _ hcb =>
      obtain ⟨fuel, rfl⟩ : ∃ f, fuel = f + 1 := ⟨fuel - 1, by have := size_le m; omega⟩
      have hsb := size_bottom hroot hb
      exact fillSpec_edge hroot hget hb hpos
        (ih (hb ▸ hcb) (root_le_of_isAncestor hroot (isAncestor_bottom hroot hb)) fuel (by omega))
  | @leaf m hget =>
    intro K _ _ fuel hfuel
    obtain ⟨fuel, rfl⟩ : ∃ f, fuel = f + 1 := ⟨fuel - 1, by have := size_le m; omega⟩
    exact fillSpec_leaf hleaf hget fuel
  | @unmodifiedSubTree m hash t hget ht hhash =>
    intro K _ hroot fuel hfuel
    obtain ⟨fuel, rfl⟩ : ∃ f, fuel = f + 1 := ⟨fuel - 1, by have := size_le m; omega⟩
    exact fillSpec_unmodifiedSubTree hT hunmod hroot hget ht hhash fuel

end Fill

/-! ## 6. The entry point -/

section Create

variable [FilledLeaf L] [TreeHashFunction L] {T : Option (Trie L)} {lm : LeafModifications L}
  {U : UpdatedSkeletonNodeMap}

/-- An entry of a map with one entry per key is what the map binds its key to. -/
theorem HashMap.get_of_mem {κ ν : Type} [DecidableEq κ] {m : HashMap κ ν}
    (hm : (m.map Prod.fst).Nodup) {e : κ × ν} (he : e ∈ m) : m.get e.1 = some e.2 :=
  (IndexMap.lookup_eq_some_iff_mem hm).mpr he

/-- A call at the root, from the placeholders of a skeleton it reaches all of, leaves no slot
empty: an empty slot is one the call did not change, so a placeholder, which is the slot of a node
the call computes and fills. -/
theorem Hashes.filled {s : Shape} {t : Trie L} {F' : HashMap NodeIndex (Option (FilledNode L))}
    (hnodup : (U.map Prod.fst).Nodup)
    (hout : ∀ k : NodeIndex, ¬ IsAncestor root.val k.val → U.get k = none)
    (hreach : ∀ k : NodeIndex, IsAncestor root.val k.val → (U.get k).isSome → Reaches U root k)
    (hh : Hashes T lm U root s
      (FilledTreeImpl.initializeFilledTreeOutputMapWithPlaceholders (L := L) ⟨U⟩) F' t) :
    ∀ e ∈ F', e.2.isSome := by
  have hF'nodup := hh.nodup (FilledTreeImpl.nodup_initializeFilledTreeOutputMapWithPlaceholders U)
  rintro ⟨k, v⟩ he
  have hget := HashMap.get_of_mem hF'nodup he
  by_contra hnone
  rw [Option.not_isSome_iff_eq_none.mp hnone] at hget
  have hsame : F'.get k =
      (FilledTreeImpl.initializeFilledTreeOutputMapWithPlaceholders (L := L) ⟨U⟩).get k := by
    by_contra hne
    obtain ⟨_, -, hsome⟩ := hh.writes k hne
    rw [hget] at hsome
    cases hsome
  rw [hget, FilledTreeImpl.get_initializeFilledTreeOutputMapWithPlaceholders] at hsame
  split at hsame
  · rename_i hany
    obtain ⟨⟨k', node⟩, hmem, hk⟩ := List.any_eq_true.mp hany
    simp only [Bool.and_eq_true, beq_iff_eq] at hk
    obtain ⟨rfl, hc⟩ := hk
    have hnode := HashMap.get_of_mem hnodup hmem
    have hbelow : IsAncestor root.val k'.val := by
      by_contra h
      rw [hout k' h] at hnode
      cases hnode
    obtain ⟨_, -, hsome⟩ := hh.fills k' node (hreach k' hbelow (by rw [hnode]; rfl)) hnode hc
    rw [hget] at hsome
    cases hsome
  · cases hsame

/-- **`create_with_existing_leaves` hashes the trie the skeleton spells**: from a skeleton with one
entry per index, none outside the tree, an inner node at the root from which it spells a
canonical shape, and the modified leaves, it returns the hash of a trie of that shape, hashed by
the hash function and holding the updated leaves; no placeholder is left empty. -/
theorem createWithExistingLeaves_spec (hT : ∀ t ∈ T, t.HashedBy)
    (hleaf : ∀ k, U.get k = some .leaf →
      ∃ leaf, lm.get k = some leaf ∧ FilledLeaf.isEmpty leaf = false)
    (hunmod : ∀ k hash, U.get k = some (.unmodifiedSubTree hash) →
      ∀ j : NodeIndex, IsAncestor k.val j.val → lm.get j = none)
    (hlm : lm ≠ []) (hnodup : (U.map Prod.fst).Nodup)
    (hout : ∀ k : NodeIndex, ¬ IsAncestor root.val k.val → U.get k = none)
    (hroot : ∃ node, U.get root = some node ∧ node.isInner = true) {K : Set Nat} {s : Shape}
    (hs : Spelled T U root K s) {fuel : Nat} (hfuel : 252 ≤ fuel) :
    ∃ (t : Trie L) (treeMap : HashMap NodeIndex (FilledNode L)),
      FilledTreeImpl.createWithExistingLeaves fuel ⟨U⟩ lm = some (.ok ⟨treeMap, t.hash⟩) ∧
      t.shape = s ∧ t.HashedBy ∧
      ∀ j leaf, t.leafAt root.val j.val = some leaf → updatedLeafAt T lm j = some leaf := by
  have hplace := placeholders_initializeFilledTreeOutputMapWithPlaceholders (L := L) hnodup root
  have hsize : 252 < Nat.size root.val + fuel := by
    have : Nat.size root.val = 1 := by decide
    omega
  obtain ⟨t, F', hcall, hh⟩ := computeFilledTreeRec_spec hT hleaf hunmod hs.expands hs.canonical
    le_rfl fuel hsize
    ⟨[], FilledTreeImpl.initializeFilledTreeOutputMapWithPlaceholders (L := L) ⟨U⟩, []⟩ hplace
  -- every slot is filled
  have hfilled := hh.filled hnodup hout hs.reaches
  obtain ⟨treeMap, htree⟩ := Option.isSome_iff_exists.mp
    (FilledTreeImpl.removeArcMutexAndOptionFromOutputMap_isSome hfilled true)
  -- the root is an inner node, so the tree is not empty
  have hnonempty : UpdatedSkeletonTreeImpl.isEmpty ⟨U⟩ = some false := by
    obtain ⟨node, hnode, hinner⟩ := hroot
    cases node with
    | binary | edge => simp [UpdatedSkeletonTreeImpl.isEmpty, hnode]
    | leaf | unmodifiedSubTree => cases hinner
  refine ⟨t, treeMap, ?_, hh.shape, hh.hashed, hh.leaves⟩
  simp [FilledTreeImpl.createWithExistingLeaves, hlm, hnonempty, hcall, htree]

end Create

end Sequencer.Patricia
