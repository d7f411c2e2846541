/-
# The previous leaves are read exactly

`create_and_get_previous_leaves` returns, beside the original skeleton, the leaves the trie held
at the modified indices: the leaf at each index the walk reaches, and the default leaf at each
index an edge passes by, or everywhere when the trie is empty.  For a trie in storage
(`StoredUnder`) and a leaf type that decodes what it encodes, the map is exactly that
(`previousLeaves_exact`), provided the empty root stands for the empty trie only and, when the
configuration compares modified leaves, every index has its modification.

The proof follows the rounds of `fetch_nodes`.  Each subtree of a round is `Pending`: its root is
a node of the trie in storage, its indices are sorted and below it, and fuel is left for the
levels under it.  Reading its root (`reads_binary`, `reads_edge`, `reads_leaf`) settles some of
its indices in the map and hands the others on to subtrees of the next round, pending there
(`Reads`).  So over a round every index stays settled or pending (`RoundInv`), and once no subtree
is left every index is settled (`fetchNodes_collects`).
-/
import Sequencer.Patricia.StoredTrie

namespace Sequencer.Patricia

open HeapIndex NodeIndex OriginalSkeletonTreeImpl

variable {L : Type}

/-! ## 1. The steps of a round -/

section Steps

variable [DecidableEq L] {leafModifications : LeafModifications L}
  {config : OriginalSkeletonTreeConfig}

theorem Leaf.compare_eq_ok {index : NodeIndex} (h : (leafModifications.get index).isSome)
    (previousLeaf : L) : ∃ b, Leaf.compare leafModifications index previousLeaf = .ok b := by
  obtain ⟨newLeaf, hget⟩ := Option.isSome_iff_exists.mp h
  exact ⟨_, by rw [Leaf.compare, hget]⟩

/-- The comparison of a modified leaf passes when the configuration does not compare, or when
the index has its modification. -/
theorem compared_eq_ok {index : NodeIndex}
    (h : config.compareModifiedLeaves = true → (leafModifications.get index).isSome)
    (previousLeaf : L) :
    ∃ b, (if config.compareModifiedLeaves then Leaf.compare leafModifications index previousLeaf
      else .ok false) = .ok b := by
  cases hc : config.compareModifiedLeaves with
  | false => exact ⟨false, rfl⟩
  | true => exact Leaf.compare_eq_ok (h hc) previousLeaf

theorem forM_eq_ok {α ε : Type} {f : α → Except ε Unit} :
    ∀ {l : List α}, (∀ x ∈ l, f x = .ok ()) → l.forM f = .ok ()
  | [], _ => rfl
  | x :: l, h => by
    show (f x >>= fun _ => l.forM f) = _
    rw [h x (.head _)]
    exact forM_eq_ok fun y hy => h y (.tail _ hy)

/-- The indices an edge passes by pass the check as well. -/
theorem logWarningForEmptyLeaves_eq_ok [Leaf L] {indices : List NodeIndex}
    (h : config.compareModifiedLeaves = true → ∀ i ∈ indices, (leafModifications.get i).isSome) :
    logWarningForEmptyLeaves (L := L) indices leafModifications config = .ok () := by
  unfold logWarningForEmptyLeaves
  cases hc : config.compareModifiedLeaves with
  | false => rfl
  | true =>
    refine forM_eq_ok fun i hi => ?_
    obtain ⟨b, hb⟩ := Leaf.compare_eq_ok (h hc i hi) Leaf.default
    rw [hb]
    rfl

end Steps

theorem SubTree.isUnmodified_eq_false {st : SubTree Felt} (hS : st.sortedLeafIndices ≠ []) :
    st.isUnmodified = false := by
  rw [SubTree.isUnmodified, Bool.eq_false_iff]
  exact fun h => hS (List.isEmpty_iff.mp h)

namespace FetchState

@[simp] theorem insertNode_previousLeaves (s : FetchState L) (index : NodeIndex)
    (node : OriginalSkeletonNode) : (s.insertNode index node).previousLeaves = s.previousLeaves :=
  rfl

@[simp] theorem insertNode_nextSubtrees (s : FetchState L) (index : NodeIndex)
    (node : OriginalSkeletonNode) : (s.insertNode index node).nextSubtrees = s.nextSubtrees :=
  rfl

/-- When modified leaves are fetched, a subtree goes down unless it is an unmodified leaf. -/
theorem handleSubtree_true (s : FetchState L) (subtree : SubTree Felt) :
    (s.handleSubtree subtree true).previousLeaves = s.previousLeaves ∧
      ∃ added, (s.handleSubtree subtree true).nextSubtrees = s.nextSubtrees ++ added ∧
        (added = [subtree] ∨ added = [] ∧ subtree.sortedLeafIndices = []) := by
  unfold handleSubtree
  split
  · exact ⟨rfl, [subtree], rfl, .inl rfl⟩
  · rename_i hgo
    split
    · rename_i hunmodified
      exact ⟨rfl, [], (List.append_nil _).symm, .inr ⟨rfl, List.isEmpty_iff.mp hunmodified⟩⟩
    · -- a modified subtree would have gone down
      rename_i hmodified
      rw [Bool.not_eq_true] at hmodified
      simp [hmodified] at hgo

end FetchState

/-! ## 2. The invariant of the rounds -/

section Invariant

variable [Leaf L] (storage : Storage) (leafModifications : LeafModifications L)
  (config : OriginalSkeletonTreeConfig) (want : NodeIndex → Option L)

/-- A subtree of a round, with the part of the trie below its root: what reading it needs. -/
structure Pending (fuel : Nat) (st : SubTree Felt) (t : Trie L) : Prop where
  root_le : root ≤ st.rootIndex
  hash_eq : st.rootHash = t.hash
  wf : t.WF st.rootIndex.val
  stored : t.Stored storage
  sorted : st.sortedLeafIndices.Pairwise (· < ·)
  below : ∀ i ∈ st.sortedLeafIndices, i.isLeaf = true ∧ IsAncestor st.rootIndex.val i.val
  want_eq : ∀ i ∈ st.sortedLeafIndices,
    want i = some ((t.leafAt st.rootIndex.val i.val).getD Leaf.default)
  compared : config.compareModifiedLeaves = true →
    ∀ i ∈ st.sortedLeafIndices, (leafModifications.get i).isSome
  /-- each round goes at least one level down, and the leaves are on level 252 -/
  fuel_le : 254 ≤ Nat.size st.rootIndex.val + fuel

/-- Every index settled in the map, or below a subtree still to be read. -/
def Settled (leaves : HashMap NodeIndex L) (pending : List (SubTree Felt)) : Prop :=
  ∀ i, leaves.get i = want i ∨ ∃ st ∈ pending, i ∈ st.sortedLeafIndices

/-- What reading the root of a subtree does: it hands subtrees on to the next round, pending
there, and settles each of its indices that it does not hand on, while a settled entry stays. -/
def Reads (fuel : Nat) (st : SubTree Felt) (s s' : FetchState L) : Prop :=
  ∃ added, s'.nextSubtrees = s.nextSubtrees ++ added ∧
    (∃ ts, List.Forall₂ (Pending storage leafModifications config want fuel) added ts) ∧
    ∀ leaves, s.previousLeaves = some leaves → ∃ leaves', s'.previousLeaves = some leaves' ∧
      (∀ i, leaves'.get i = leaves.get i ∨ leaves'.get i = want i) ∧
      ∀ i ∈ st.sortedLeafIndices, leaves'.get i = want i ∨ ∃ c ∈ added, i ∈ c.sortedLeafIndices

/-- Within a round, with `rest` still to be read: every index settled or pending, and the
subtrees handed on so far pending in the next round. -/
structure RoundInv (fuel : Nat) (rest : List (SubTree Felt)) (s : FetchState L) : Prop where
  settled : ∃ leaves, s.previousLeaves = some leaves ∧ Settled want leaves (rest ++ s.nextSubtrees)
  next : ∃ ts, List.Forall₂ (Pending storage leafModifications config want fuel) s.nextSubtrees ts

end Invariant

section Reading

variable [Leaf L] {storage : Storage} {leafModifications : LeafModifications L}
  {config : OriginalSkeletonTreeConfig} {want : NodeIndex → Option L} {fuel : Nat}
  {st : SubTree Felt} {t : Trie L}

theorem Pending.ne_zero (hp : Pending storage leafModifications config want fuel st t) :
    st.rootIndex.val ≠ 0 :=
  Nat.pos_iff_ne_zero.mp hp.root_le

/-- A subtree below the root of a pending one, and the trie there, are pending a round later. -/
theorem Pending.descend (hp : Pending storage leafModifications config want (fuel + 1) st t)
    {c : SubTree Felt} {t' : Trie L} (hhash : c.rootHash = t'.hash) (hwf : t'.WF c.rootIndex.val)
    (hstored : t'.Stored storage) (hsize : Nat.size st.rootIndex.val < Nat.size c.rootIndex.val)
    (hsub : c.sortedLeafIndices.Sublist st.sortedLeafIndices)
    (hbelow : ∀ i ∈ c.sortedLeafIndices, IsAncestor c.rootIndex.val i.val)
    (hleafAt : ∀ i ∈ c.sortedLeafIndices,
      t.leafAt st.rootIndex.val i.val = t'.leafAt c.rootIndex.val i.val) :
    Pending storage leafModifications config want fuel c t' where
  root_le := Nat.size_pos.mp (by omega)
  hash_eq := hhash
  wf := hwf
  stored := hstored
  sorted := hp.sorted.sublist hsub
  below i hi := ⟨(hp.below i (hsub.subset hi)).1, hbelow i hi⟩
  want_eq i hi := by rw [hp.want_eq i (hsub.subset hi), hleafAt i hi]
  compared hc i hi := hp.compared hc i (hsub.subset hi)
  fuel_le := by
    have := hp.fuel_le
    omega

/-- **The roots of subtrees on tries in storage read back** as the roots of the tries. -/
theorem calculateSubtreesRoots_stored
    (hdecode : ∀ leaf : L, Leaf.deserialize (Leaf.serialize leaf) = .ok leaf)
    {sts : List (SubTree Felt)} {ts : List (Trie L)}
    (hstored : List.Forall₂ (fun (st : SubTree Felt) (t : Trie L) => st.rootIndex.val ≠ 0 ∧
      st.rootHash = t.hash ∧ t.WF st.rootIndex.val ∧ t.Stored storage) sts ts) :
    calculateSubtreesRoots (L := L) sts storage = some (.ok (ts.map Trie.filledNode)) := by
  induction hstored with
  | nil => rfl
  | @cons st t sts ts hp _ ih =>
    obtain ⟨hne, hhash, hwf, hstored⟩ := hp
    have hleaf : st.isLeaf = t.isLeaf := hwf.isLeaf_eq
    have hkey : createDbKey (if t.isLeaf then Leaf.storagePrefix L
        else StarknetPrefix.innerNode.toStoragePrefix) t.hash.toBytesBe = t.dbKey := rfl
    have hdes := Trie.deserialize_serialize_filledNode hdecode hne hwf
    unfold calculateSubtreesRoots at ih ⊢
    simp only [mget] at ih
    simp only [List.map_cons, mget, List.zip_cons_cons, deserializeRoots, hleaf, hhash, hkey,
      hstored.node, hdes, ih, Option.map_some, Except.map]

theorem reads_of_unmodified {s s' : FetchState L} (hS : st.sortedLeafIndices = [])
    (hprev : s'.previousLeaves = s.previousLeaves) (hnext : s'.nextSubtrees = s.nextSubtrees) :
    Reads storage leafModifications config want fuel st s s' :=
  ⟨[], by rw [hnext, List.append_nil], ⟨[], .nil⟩, fun leaves hleaves =>
    ⟨leaves, hprev.trans hleaves, fun _ => .inl rfl, by simp [hS]⟩⟩

/-- A subtree that `handle_subtree` is given is handed on, unless it has no indices. -/
theorem handleSubtree_pending (s : FetchState L) {c : SubTree Felt} {t' : Trie L}
    (hc : Pending storage leafModifications config want fuel c t') :
    ∃ added, (s.handleSubtree c true).nextSubtrees = s.nextSubtrees ++ added ∧
      (∃ ts, List.Forall₂ (Pending storage leafModifications config want fuel) added ts) ∧
      ∀ i ∈ c.sortedLeafIndices, ∃ c' ∈ added, i ∈ c'.sortedLeafIndices := by
  obtain ⟨-, added, hnext, hadded⟩ := s.handleSubtree_true c
  refine ⟨added, hnext, ?_, fun i hi => ?_⟩
  · rcases hadded with rfl | ⟨rfl, -⟩
    · exact ⟨[t'], .cons hc .nil⟩
    · exact ⟨[], .nil⟩
  · rcases hadded with rfl | ⟨rfl, hS⟩
    · exact ⟨c, .head _, hi⟩
    · rw [hS] at hi
      cases hi

/-! ## 3. Reading the root of a subtree -/

variable [DecidableEq L]

/-- **A leaf**: the only index below it is itself, and its leaf goes into the map. -/
theorem reads_leaf {hash : Felt} {data : L}
    (hp : Pending storage leafModifications config want (fuel + 1) st (.leaf hash data))
    (s : FetchState L) :
    ∃ s', processFilledRoot leafModifications config true s (Trie.leaf hash data).filledNode st =
      some (.ok s') ∧ Reads storage leafModifications config want fuel st s s' := by
  by_cases hS : st.sortedLeafIndices = []
  · -- a leaf read as a sibling changes nothing
    refine ⟨s, ?_, reads_of_unmodified hS rfl rfl⟩
    simp [processFilledRoot, Trie.filledNode, SubTree.isUnmodified, hS]
  · have hsize : Nat.size st.rootIndex.val = 252 := hp.wf
    have honly : ∀ i ∈ st.sortedLeafIndices, i = st.rootIndex := fun i hi =>
      NodeIndex.ext (Trie.eq_of_isAncestor_of_size hsize (hp.below i hi).2
        (isLeaf_iff_size.mp (hp.below i hi).1))
    obtain ⟨i₀, hi₀⟩ := List.exists_mem_of_ne_nil _ hS
    have hmem : st.rootIndex ∈ st.sortedLeafIndices := honly i₀ hi₀ ▸ hi₀
    obtain ⟨b, hb⟩ := compared_eq_ok (fun hc => hp.compared hc _ hmem) data
    have hwant : want st.rootIndex = some data := by
      rw [hp.want_eq _ hmem]
      simp [Trie.leafAt]
    refine ⟨{ s with previousLeaves := s.previousLeaves.map fun leaves =>
        (leaves.insert st.rootIndex data).2 }, ?_, [], by simp, ⟨[], .nil⟩, ?_⟩
    · simp only [processFilledRoot, Trie.filledNode, SubTree.isUnmodified_eq_false hS,
        Bool.false_eq_true, if_false, hb]
    · intro leaves hleaves
      refine ⟨_, by rw [hleaves]; rfl, fun i => ?_, fun i hi => .inl ?_⟩
      · by_cases h : i = st.rootIndex
        · subst h
          exact .inr (by rw [HashMap.get_insert, if_pos rfl, hwant])
        · exact .inl (by rw [HashMap.get_insert, if_neg h])
      · rw [honly i hi, HashMap.get_insert, if_pos rfl, hwant]

/-- **A binary node**: its indices are split between its children, both handed on. -/
theorem reads_binary {hash : Felt} {left right : Trie L}
    (hp : Pending storage leafModifications config want (fuel + 1) st (.binary hash left right))
    (s : FetchState L) :
    ∃ s', processFilledRoot leafModifications config true s
      (Trie.binary hash left right).filledNode st = some (.ok s') ∧
      Reads storage leafModifications config want fuel st s s' := by
  by_cases hS : st.sortedLeafIndices = []
  · -- an unmodified node is recorded whole
    refine ⟨s.insertNode st.rootIndex (.unmodifiedSubTree hash), ?_,
      reads_of_unmodified hS rfl rfl⟩
    simp [processFilledRoot, Trie.filledNode, SubTree.isUnmodified, hS]
  · have hn := hp.ne_zero
    obtain ⟨hsize, hleft_wf, hright_wf⟩ := hp.wf
    have hleaf : st.rootIndex.isLeaf = false := by
      rw [Bool.eq_false_iff]
      intro h
      rw [isLeaf_iff_size.mp h] at hsize
      exact lt_irrefl _ hsize
    obtain ⟨left', right', hchildren, hlv, hrv, hlh, hrh, happend, hlb, hrb⟩ :=
      getChildrenSubtrees_partitions st left.hash right.hash hp.root_le hleaf hp.sorted hp.below
    have hsize_left : Nat.size (2 * st.rootIndex.val) = Nat.size st.rootIndex.val + 1 :=
      size_two_mul_add (b := 0) hn (by decide)
    have hsize_right : Nat.size (2 * st.rootIndex.val + 1) = Nat.size st.rootIndex.val + 1 :=
      size_two_mul_add hn (by decide)
    have hlp : Pending storage leafModifications config want fuel left' left :=
      hp.descend hlh (hlv ▸ hleft_wf) hp.stored.left
        (by rw [hlv, hsize_left]; omega)
        (happend ▸ List.sublist_append_left _ _) (fun i hi => hlv ▸ hlb i hi)
        (fun i hi => by rw [hlv]; exact Trie.leafAt_binary_of_left hn (hlb i hi))
    have hrp : Pending storage leafModifications config want fuel right' right :=
      hp.descend hrh (hrv ▸ hright_wf) hp.stored.right
        (by rw [hrv, hsize_right]; omega)
        (happend ▸ List.sublist_append_right _ _) (fun i hi => hrv ▸ hrb i hi)
        (fun i hi => by rw [hrv]; exact Trie.leafAt_binary_of_right hn (hrb i hi))
    let s₁ := s.insertNode st.rootIndex .binary
    let s₂ := s₁.handleSubtree left' true
    obtain ⟨addedLeft, hnextLeft, ⟨tsLeft, hLeft⟩, hcovLeft⟩ := handleSubtree_pending s₁ hlp
    obtain ⟨addedRight, hnextRight, ⟨tsRight, hRight⟩, hcovRight⟩ := handleSubtree_pending s₂ hrp
    refine ⟨s₂.handleSubtree right' true, ?_, addedLeft ++ addedRight, ?_,
      ⟨tsLeft ++ tsRight, List.rel_append hLeft hRight⟩, fun leaves hleaves => ?_⟩
    · simp only [processFilledRoot, Trie.filledNode, SubTree.isUnmodified_eq_false hS,
        Bool.false_eq_true, if_false, hchildren]
      rfl
    · rw [hnextRight, hnextLeft, List.append_assoc]
      rfl
    · -- the map is not touched; each index went down with one of the children
      refine ⟨leaves, ?_, fun _ => .inl rfl, fun i hi => .inr ?_⟩
      · rw [(s₂.handleSubtree_true right').1, (s₁.handleSubtree_true left').1]
        exact hleaves
      · rw [← happend] at hi
        rcases List.mem_append.mp hi with hi | hi
        · obtain ⟨c, hc, hic⟩ := hcovLeft i hi
          exact ⟨c, List.mem_append_left _ hc, hic⟩
        · obtain ⟨c, hc, hic⟩ := hcovRight i hi
          exact ⟨c, List.mem_append_right _ hc, hic⟩

/-- **An edge**: the indices below its bottom go down with it, and those it passes by were
empty, so they get the default leaf. -/
theorem reads_edge {hash : Felt} {pathToBottom : PathToBottom} {bottom : Trie L}
    (hp : Pending storage leafModifications config want (fuel + 1) st (.edge hash pathToBottom bottom))
    (s : FetchState L) :
    ∃ s', processFilledRoot leafModifications config true s
      (Trie.edge hash pathToBottom bottom).filledNode st = some (.ok s') ∧
      Reads storage leafModifications config want fuel st s s' := by
  have hn := hp.ne_zero
  obtain ⟨hlength_pos, hlength, hbottom_wf⟩ := hp.wf
  have hlt : pathToBottom.bottomValue st.rootIndex.val < 2 ^ 252 := by
    have := shiftLeft_add_lt_two_pow (Nat.lt_size_self st.rootIndex.val) pathToBottom.path_lt
    exact lt_of_lt_of_le this (Nat.pow_le_pow_right (by decide) hlength)
  let bottomIndex : NodeIndex := ⟨pathToBottom.bottomValue st.rootIndex.val, le_max_of_lt hlt⟩
  have hbottomIndex : pathToBottom.bottomIndex st.rootIndex = some bottomIndex :=
    PathToBottom.computeBottomIndex_of_le _
  by_cases hS : st.sortedLeafIndices = []
  · -- an unmodified edge is recorded with its bottom
    refine ⟨(s.insertNode st.rootIndex (.edge pathToBottom)).insertNode bottomIndex
      (.unmodifiedSubTree bottom.hash), ?_, reads_of_unmodified hS rfl rfl⟩
    simp [processFilledRoot, Trie.filledNode, SubTree.isUnmodified, hS, hbottomIndex]
  · obtain ⟨bottom', hbottom', hget⟩ := getBottomSubtree_partitions st pathToBottom bottom.hash
      hp.root_le hlength hp.sorted (fun i hi => (hp.below i hi).1)
    obtain rfl : bottom' = bottomIndex := Option.some.inj (hbottom'.symm.trans hbottomIndex)
    let passed := st.sortedLeafIndices.filter fun i => !decide (IsAncestor bottomIndex.val i.val)
    let bottomSubtree : SubTree Felt :=
      ⟨st.sortedLeafIndices.filter fun i => decide (IsAncestor bottomIndex.val i.val),
        bottomIndex, bottom.hash⟩
    have hc : Pending storage leafModifications config want fuel bottomSubtree bottom :=
      hp.descend rfl hbottom_wf hp.stored.bottom
        (by show _ < Nat.size (pathToBottom.bottomValue _); rw [Trie.size_bottomValue hn]; omega)
        (List.filter_sublist) (fun i hi => of_decide_eq_true (List.mem_filter.mp hi).2)
        (fun i _ => rfl)
    -- what the edge passes by was empty
    have hpassed : ∀ i ∈ passed, want i = some Leaf.default := by
      intro i hi
      obtain ⟨hi, hnot⟩ := List.mem_filter.mp hi
      rw [hp.want_eq i hi]
      have hnone := bottom.leafAt_eq_none_of_not_isAncestor (Trie.bottomValue_ne_zero hn _)
        (by simpa using hnot)
      simp only [Trie.leafAt, hnone, Option.getD_none]
    have hlog : logWarningForEmptyLeaves (st.sortedLeafIndices.filter fun i =>
        !decide (IsAncestor bottomIndex.val i.val)) leafModifications config = .ok () :=
      logWarningForEmptyLeaves_eq_ok fun hc i hi => hp.compared hc i (List.mem_filter.mp hi).1
    let s₁ := s.insertNode st.rootIndex (.edge pathToBottom)
    let previousLeaves := s₁.previousLeaves.map fun leaves =>
      leaves.extend (passed.map fun idx => (idx, Leaf.default))
    let s₂ : FetchState L := { s₁ with previousLeaves }
    obtain ⟨added, hnext, hadded, hcov⟩ := handleSubtree_pending s₂ hc
    refine ⟨s₂.handleSubtree bottomSubtree true, ?_, added, ?_, hadded, fun leaves hleaves => ?_⟩
    · simp only [processFilledRoot, Trie.filledNode, SubTree.isUnmodified_eq_false hS,
        Bool.false_eq_true, if_false, hget, hlog]
      rfl
    · rw [hnext]
      rfl
    · refine ⟨leaves.extend (passed.map fun idx => (idx, Leaf.default)), ?_, fun i => ?_,
        fun i hi => ?_⟩
      · rw [(s₂.handleSubtree_true bottomSubtree).1]
        show s₁.previousLeaves.map _ = _
        rw [FetchState.insertNode_previousLeaves, hleaves]
        rfl
      · rw [HashMap.get_extend_map]
        split
        · exact .inr (hpassed i ‹_›).symm
        · exact .inl rfl
      · -- below the bottom the index went down, otherwise it was passed by
        by_cases hbelow : IsAncestor bottomIndex.val i.val
        · exact .inr (hcov i (List.mem_filter.mpr ⟨hi, decide_eq_true hbelow⟩))
        · have hmem : i ∈ passed := List.mem_filter.mpr ⟨hi, by simp [hbelow]⟩
          exact .inl (by rw [HashMap.get_extend_map, if_pos hmem, hpassed i hmem])

/-- Reading the root of any pending subtree. -/
theorem processFilledRoot_reads
    (hp : Pending storage leafModifications config want (fuel + 1) st t) (s : FetchState L) :
    ∃ s', processFilledRoot leafModifications config true s t.filledNode st = some (.ok s') ∧
      Reads storage leafModifications config want fuel st s s' := by
  cases t with
  | binary hash left right => exact reads_binary hp s
  | edge hash pathToBottom bottom => exact reads_edge hp s
  | leaf hash data => exact reads_leaf hp s

end Reading

/-! ## 4. Rounds and runs -/

section Runs

variable [Leaf L] {storage : Storage} {leafModifications : LeafModifications L}
  {config : OriginalSkeletonTreeConfig} {want : NodeIndex → Option L} {fuel : Nat}

/-- One step of a round keeps its invariant. -/
theorem RoundInv.of_reads {st : SubTree Felt} {rest : List (SubTree Felt)} {s s' : FetchState L}
    (hinv : RoundInv storage leafModifications config want fuel (st :: rest) s)
    (hreads : Reads storage leafModifications config want fuel st s s') :
    RoundInv storage leafModifications config want fuel rest s' := by
  obtain ⟨added, hnext, ⟨ts', hts'⟩, hleaves⟩ := hreads
  obtain ⟨⟨leaves, hprev, hsettled⟩, ⟨ts, hts⟩⟩ := hinv
  obtain ⟨leaves', hprev', hkeep, hst⟩ := hleaves leaves hprev
  refine ⟨⟨leaves', hprev', fun i => ?_⟩, ⟨ts ++ ts', by rw [hnext]; exact List.rel_append hts hts'⟩⟩
  rw [hnext, ← List.append_assoc]
  rcases hsettled i with hi | ⟨c, hc, hic⟩
  · -- a settled entry stays settled
    rcases hkeep i with h | h
    · exact .inl (h.trans hi)
    · exact .inl h
  · -- a pending index is in the subtree just read, or still pending
    rcases List.mem_append.mp hc with hc | hc
    · rcases List.mem_cons.mp hc with rfl | hc
      · rcases hst i hic with h | ⟨c', hc', hic'⟩
        · exact .inl h
        · exact .inr ⟨c', List.mem_append_right _ hc', hic'⟩
      · exact .inr ⟨c, List.mem_append_left _ (List.mem_append_left _ hc), hic⟩
    · exact .inr ⟨c, List.mem_append_left _ (List.mem_append_right _ hc), hic⟩

variable [DecidableEq L]

/-- **A round reads every pending subtree** and ends with each index settled or pending in the
next round. -/
theorem processFilledRoots_round {sts : List (SubTree Felt)} {ts : List (Trie L)}
    (hpend : List.Forall₂ (Pending storage leafModifications config want (fuel + 1)) sts ts)
    {s : FetchState L} (hinv : RoundInv storage leafModifications config want fuel sts s) :
    ∃ s', processFilledRoots leafModifications config true s ((ts.map Trie.filledNode).zip sts) =
      some (.ok s') ∧ RoundInv storage leafModifications config want fuel [] s' := by
  induction hpend generalizing s with
  | nil => exact ⟨s, rfl, hinv⟩
  | cons hp _ ih =>
    obtain ⟨s₁, hstep, hreads⟩ := processFilledRoot_reads hp s
    obtain ⟨s', hrun, hinv'⟩ := ih (hinv.of_reads hreads)
    refine ⟨s', ?_, hinv'⟩
    simp only [List.map_cons, List.zip_cons_cons, processFilledRoots, hstep, hrun]

/-- **The rounds settle every index**: from pending subtrees, with every index settled or pending,
`fetch_nodes` returns a map in which every index is settled. -/
theorem fetchNodes_collects
    (hdecode : ∀ leaf : L, Leaf.deserialize (Leaf.serialize leaf) = .ok leaf) :
    ∀ (fuel : Nat) (tree : OriginalSkeletonTreeImpl) (sts : List (SubTree Felt)) (ts : List (Trie L))
      (leaves : HashMap NodeIndex L), 0 < fuel →
      List.Forall₂ (Pending storage leafModifications config want fuel) sts ts →
      Settled want leaves sts →
      ∃ tree' leaves', fetchNodes fuel tree sts storage leafModifications config (some leaves) =
        some (.ok (tree', some leaves')) ∧ ∀ i, leaves'.get i = want i
  | 0, _, _, _, _, hfuel, _, _ => absurd hfuel (Nat.lt_irrefl 0)
  | fuel + 1, tree, [], _, leaves, _, _, hsettled => by
    -- no subtree is left: every index is settled
    refine ⟨tree, leaves, rfl, fun i => ?_⟩
    rcases hsettled i with h | ⟨_, h, _⟩
    · exact h
    · cases h
  | fuel + 1, tree, st :: sts, ts, leaves, _, hpend, hsettled => by
    obtain ⟨t, ts', hp, -, rfl⟩ := List.forall₂_cons_left_iff.mp hpend
    -- a pending subtree is at most on the last level, so fuel is left for the next round
    have hfuel : 0 < fuel := by
      have := hp.fuel_le
      have := size_le st.rootIndex
      omega
    obtain ⟨s', hround, ⟨leaves', hprev, hsettled'⟩, ⟨ts'', hnext⟩⟩ :=
      processFilledRoots_round hpend (s := ⟨tree, [], some leaves⟩)
        ⟨⟨leaves, rfl, by simpa using hsettled⟩, ⟨[], .nil⟩⟩
    obtain ⟨tree', leaves'', hrun, hall⟩ := fetchNodes_collects hdecode fuel s'.tree
      s'.nextSubtrees ts'' leaves' hfuel hnext (by simpa using hsettled')
    refine ⟨tree', leaves'', ?_, hall⟩
    rw [← hprev] at hrun
    simp only [fetchNodes, List.isEmpty_cons, Bool.false_eq_true, if_false, Option.isSome_some,
      Bool.or_true, hround, hrun, calculateSubtreesRoots_stored hdecode
        (hpend.imp fun _ _ hp => ⟨hp.ne_zero, hp.hash_eq, hp.wf, hp.stored⟩)]

end Runs

/-! ## 5. The previous leaves -/

/-- **Previous-leaf extraction is exact**: for a trie in storage under its root hash, a leaf type
that decodes what it encodes, and sorted leaf indices `S`, with the empty root standing for the
empty trie only and, when the configuration compares modified leaves, a modification at every
index, `create_and_get_previous_leaves` returns a map whose keys are `S` and whose value at each
index is the leaf the trie held there, or the default leaf where it held none. -/
theorem previousLeaves_exact [Leaf L] [DecidableEq L] (fuel : Nat) (storage : Storage) (T : Option (Trie L)) (rootHash : Felt)
    (S : SortedLeafIndices) (config : OriginalSkeletonTreeConfig)
    (leafModifications : LeafModifications L)
    (hdecode : ∀ leaf : L, Leaf.deserialize (Leaf.serialize leaf) = .ok leaf)
    (hT : StoredUnder storage T rootHash) (hempty : rootHash = Felt.zero → T = none)
    (hsorted : S.Pairwise (· < ·)) (hleaves : ∀ i ∈ S, i.isLeaf = true)
    (hcompare : config.compareModifiedLeaves = true → ∀ i ∈ S, (leafModifications.get i).isSome)
    (hfuel : 253 ≤ fuel) :
    ∃ skeleton leaves, createAndGetPreviousLeaves fuel storage rootHash S config leafModifications =
        some (.ok (skeleton, leaves)) ∧
      ∀ i, leaves.get i = if i ∈ S then some (previousLeafAt T i) else none := by
  unfold createAndGetPreviousLeaves createAndGetPreviousLeavesImpl
  by_cases hS : S.isEmpty
  · -- no index: the map is empty
    refine ⟨_, _, by rw [if_pos hS], fun i => ?_⟩
    rw [List.isEmpty_iff.mp hS]
    rfl
  by_cases hzero : rootHash = Felt.zero
  · -- the empty trie: every index gets the default leaf
    refine ⟨_, _, by rw [if_neg hS, if_pos hzero], fun i => ?_⟩
    rw [HashMap.get_extend_map, hempty hzero]
    rfl
  obtain ⟨t, rfl⟩ : ∃ t, T = some t := by
    cases T with
    | none => exact absurd hT hzero
    | some t => exact ⟨t, rfl⟩
  obtain ⟨hhash, hwf, hstored⟩ := hT
  let want : NodeIndex → Option L := fun i => if i ∈ S then some (previousLeafAt (some t) i) else none
  -- the root subtree holds every index and the whole trie
  have hmain : Pending storage leafModifications config want fuel ⟨S, root, rootHash⟩ t :=
    { root_le := le_rfl
      hash_eq := hhash
      wf := hwf
      stored := hstored
      sorted := hsorted
      below := fun i hi => ⟨hleaves i hi,
        isAncestor_one (Nat.pos_iff_ne_zero.mp (root_le_of_isLeaf (hleaves i hi)))⟩
      want_eq := fun i hi => by
        simp only [want, if_pos (show i ∈ S from hi), previousLeafAt, Option.bind_some]
      compared := hcompare
      fuel_le := by
        show 254 ≤ Nat.size 1 + fuel
        rw [Nat.size_one]
        omega }
  have hsettled : Settled want [] [⟨S, root, rootHash⟩] := fun i => by
    by_cases hi : i ∈ S
    · exact .inr ⟨_, .head _, hi⟩
    · exact .inl (by simp only [want, if_neg hi]; rfl)
  obtain ⟨tree', leaves', hrun, hall⟩ := fetchNodes_collects hdecode fuel ⟨[], S⟩
    [⟨S, root, rootHash⟩] [t] [] (by omega) (.cons hmain .nil) hsettled
  refine ⟨tree', leaves', ?_, hall⟩
  simp only [if_neg hS, if_neg hzero, hrun, Option.getD_some]

/-! ## 6. One storage value below an edge from the root -/

/-- The edge from the root to the first leaf. -/
def PathToBottom.toFirstLeaf : PathToBottom := ⟨0, 251, by decide, by decide⟩

/-- A trie of one storage value, at the first leaf, below an edge from the root. -/
def firstLeafTrie (rootHash value : Felt) : Trie StarknetStorageValue :=
  .edge rootHash PathToBottom.toFirstLeaf (.leaf value ⟨value⟩)

/-- The storage that holds the two nodes of `firstLeafTrie`. -/
def firstLeafStorage (rootHash value : Felt) : Storage := fun key =>
  if key = (firstLeafTrie rootHash value).dbKey then
    some (firstLeafTrie rootHash value).filledNode.serialize
  else if key = (Trie.leaf value ⟨value⟩ : Trie StarknetStorageValue).dbKey then
    some (Trie.leaf value ⟨value⟩ : Trie StarknetStorageValue).filledNode.serialize
  else none

theorem createDbKey_head? {storagePrefix : List UInt8} (h : storagePrefix ≠ []) (suffix : List UInt8) :
    (createDbKey storagePrefix suffix).head? = storagePrefix.head? := by
  obtain ⟨b, rest, rfl⟩ := List.exists_cons_of_ne_nil h
  rfl

theorem storedUnder_firstLeafTrie (rootHash value : Felt) :
    StoredUnder (firstLeafStorage rootHash value) (some (firstLeafTrie rootHash value)) rootHash := by
  -- a leaf and an inner node are stored under different prefixes
  have hkey : (Trie.leaf value ⟨value⟩ : Trie StarknetStorageValue).dbKey ≠
      (firstLeafTrie rootHash value).dbKey := by
    intro h
    have hhead := congrArg List.head? h
    simp only [Trie.dbKey, firstLeafTrie, Trie.isLeaf, if_true, Bool.false_eq_true, if_false] at hhead
    rw [createDbKey_head? (by decide), createDbKey_head? (by decide)] at hhead
    exact absurd hhead (by decide)
  have hsize : Nat.size (PathToBottom.toFirstLeaf.bottomValue root.val) = 252 := by
    rw [Trie.size_bottomValue (by decide)]
    rfl
  refine ⟨rfl, ⟨by decide, by decide, hsize⟩, ?_⟩
  unfold Trie.Stored
  refine ⟨if_pos rfl, ?_⟩
  unfold Trie.Stored
  exact ⟨by rw [firstLeafStorage, if_neg hkey, if_pos rfl], trivial⟩

/-- The first leaf: an edge of 251 levels from the root ends there. -/
theorem firstLeaf_eq_bottomValue : firstLeaf.val = PathToBottom.toFirstLeaf.bottomValue root.val := by
  decide

/-- **A witness of `previousLeaves_exact`**: the trie of one storage value, read at its leaf
without comparing. -/
theorem previousLeaves_exact_one_leaf :
    (∀ leaf : StarknetStorageValue, Leaf.deserialize (Leaf.serialize leaf) = .ok leaf) ∧
    StoredUnder (firstLeafStorage Felt.one Felt.one) (some (firstLeafTrie Felt.one Felt.one))
      Felt.one ∧
    (Felt.one = Felt.zero → some (firstLeafTrie Felt.one Felt.one) = none) ∧
    [firstLeaf].Pairwise (· < ·) ∧ (∀ i ∈ [firstLeaf], i.isLeaf = true) ∧
    ((⟨false⟩ : OriginalSkeletonTreeConfig).compareModifiedLeaves = true →
      ∀ i ∈ [firstLeaf], (HashMap.get ([] : LeafModifications StarknetStorageValue) i).isSome) ∧
    253 ≤ 253 ∧
    ∃ skeleton leaves, createAndGetPreviousLeaves 253 (firstLeafStorage Felt.one Felt.one) Felt.one
        [firstLeaf] ⟨false⟩ ([] : LeafModifications StarknetStorageValue) =
          some (.ok (skeleton, leaves)) ∧
      ∀ i, leaves.get i = if i ∈ [firstLeaf] then
        some (previousLeafAt (some (firstLeafTrie Felt.one Felt.one)) i) else none := by
  have hdecode : ∀ leaf : StarknetStorageValue, Leaf.deserialize (Leaf.serialize leaf) = .ok leaf :=
    StarknetStorageValue.deserialize_serialize
  have hT := storedUnder_firstLeafTrie Felt.one Felt.one
  have hempty : Felt.one = Felt.zero → some (firstLeafTrie Felt.one Felt.one) = none :=
    fun h => absurd h (by decide)
  have hsorted : [firstLeaf].Pairwise (· < ·) := List.pairwise_singleton _ _
  have hleaves : ∀ i ∈ [firstLeaf], i.isLeaf = true := by decide
  have hcompare : (⟨false⟩ : OriginalSkeletonTreeConfig).compareModifiedLeaves = true →
      ∀ i ∈ [firstLeaf], (HashMap.get ([] : LeafModifications StarknetStorageValue) i).isSome :=
    fun h => absurd h (by decide)
  exact ⟨hdecode, hT, hempty, hsorted, hleaves, hcompare, le_rfl,
    previousLeaves_exact 253 _ _ _ _ _ _ hdecode hT hempty hsorted hleaves hcompare le_rfl⟩

/-- **Where the conditions of `previousLeaves_exact` fail, so does the claim**: comparing modified
leaves with no modification at an index the edge passes by is an error, not a map; and a
non-empty trie stored under the empty root reads as empty, the default leaf where it holds one. -/
theorem previousLeaves_not_exact :
    (StoredUnder (firstLeafStorage Felt.one Felt.one) (some (firstLeafTrie Felt.one Felt.one))
        Felt.one ∧
      createAndGetPreviousLeaves 253 (firstLeafStorage Felt.one Felt.one) Felt.one
          [⟨NodeIndex.max, le_rfl⟩] ⟨true⟩ ([] : LeafModifications StarknetStorageValue) =
        some (.error (.readModificationsError ⟨NodeIndex.max, le_rfl⟩))) ∧
    (StoredUnder (firstLeafStorage Felt.zero Felt.one) (some (firstLeafTrie Felt.zero Felt.one))
        Felt.zero ∧
      previousLeafAt (some (firstLeafTrie Felt.zero Felt.one)) firstLeaf = ⟨Felt.one⟩ ∧
      ∃ skeleton leaves, createAndGetPreviousLeaves 253 (firstLeafStorage Felt.zero Felt.one)
          Felt.zero [firstLeaf] ⟨false⟩ ([] : LeafModifications StarknetStorageValue) =
          some (.ok (skeleton, leaves)) ∧ leaves.get firstLeaf = some ⟨Felt.zero⟩) := by
  refine ⟨⟨storedUnder_firstLeafTrie _ _, ?_⟩, storedUnder_firstLeafTrie _ _, ?_, ⟨_, _, rfl, rfl⟩⟩
  · -- the root edge passes by the last leaf, which has no modification to compare with
    let lastLeaf : NodeIndex := ⟨NodeIndex.max, le_rfl⟩
    let mainSubtree : SubTree Felt := ⟨[lastLeaf], root, Felt.one⟩
    obtain ⟨-, hwf, hstored⟩ := storedUnder_firstLeafTrie Felt.one Felt.one
    have hroots : calculateSubtreesRoots [mainSubtree] (firstLeafStorage Felt.one Felt.one) =
        some (.ok ([firstLeafTrie Felt.one Felt.one].map Trie.filledNode)) :=
      calculateSubtreesRoots_stored StarknetStorageValue.deserialize_serialize
        (.cons ⟨one_ne_zero, rfl, hwf, hstored⟩ .nil)
    obtain ⟨bottom, hbottom, hget⟩ := getBottomSubtree_partitions mainSubtree
      PathToBottom.toFirstLeaf Felt.one le_rfl (by show Nat.size 1 + 251 ≤ 252; rw [Nat.size_one])
      (List.pairwise_singleton _ _) (by decide)
    have hbottom_val : bottom.val = PathToBottom.toFirstLeaf.bottomValue root.val := by
      rw [PathToBottom.bottomIndex, PathToBottom.computeBottomIndex_of_le (le_max_of_lt
        (by decide))] at hbottom
      rw [← Option.some.inj hbottom]
      rfl
    have hpassed : ¬ IsAncestor bottom.val lastLeaf.val := by
      intro h
      have hsize : Nat.size bottom.val = Nat.size lastLeaf.val := by
        rw [hbottom_val, Trie.size_bottomValue (by decide),
          isLeaf_iff_size.mp (show lastLeaf.isLeaf = true by decide)]
        rfl
      exact absurd (h.eq_of_size_eq hsize) (by rw [hbottom_val]; decide)
    have hlog : logWarningForEmptyLeaves [lastLeaf] ([] : LeafModifications StarknetStorageValue)
        ⟨true⟩ = .error (.readModificationsError lastLeaf) := rfl
    have hround : processFilledRoots ([] : LeafModifications StarknetStorageValue) ⟨true⟩ true
        ⟨⟨[], [lastLeaf]⟩, [], some []⟩
        (([firstLeafTrie Felt.one Felt.one].map Trie.filledNode).zip [mainSubtree]) =
          some (.error (.readModificationsError lastLeaf)) := by
      simp only [List.map_cons, List.map_nil, List.zip_cons_cons, List.zip_nil_left,
        processFilledRoots, processFilledRoot, firstLeafTrie, Trie.filledNode, Trie.hash,
        SubTree.isUnmodified, mainSubtree, List.isEmpty_cons, Bool.false_eq_true, if_false, hget,
        List.filter_cons, List.filter_nil, hpassed, decide_false, Bool.not_false, if_true, hlog]
    have hfetch : fetchNodes 253 ⟨[], [lastLeaf]⟩ [mainSubtree] (firstLeafStorage Felt.one Felt.one)
        ([] : LeafModifications StarknetStorageValue) ⟨true⟩ (some []) =
          some (.error (.readModificationsError lastLeaf)) := by
      rw [fetchNodes.eq_def]
      simp only [List.isEmpty_cons, Bool.false_eq_true, if_false, Option.isSome_some, Bool.or_true,
        hroots, hround]
    simp only [createAndGetPreviousLeaves, createAndGetPreviousLeavesImpl, List.isEmpty_cons,
      Bool.false_eq_true, if_false, if_neg (by decide : Felt.one ≠ Felt.zero)]
    rw [hfetch]
  · simp only [previousLeafAt, Option.bind_some, firstLeafTrie, Trie.leafAt,
      ← firstLeaf_eq_bottomValue, if_true, Option.getD_some]

end Sequencer.Patricia
