/-
# The original skeleton, fetched from storage

Before a Patricia-Merkle tree is updated, the committer reads from storage the part of it that
the update touches (`original_skeleton_tree/create_tree.rs`).  `fetch_nodes` goes down the tree
one level of subtrees at a time: it reads the roots of the current subtrees under their hashes
(`calculate_subtrees_roots`), records each as a skeleton node, and sends down the subtrees that
hold modified leaves, and the inner siblings whose edges the skeleton needs (`handle_subtree`).
The modified indices that an edge passes by were empty before; a modified leaf that is reached
is read.  `create_and_get_previous_leaves` returns these previous leaves beside the skeleton, the
default leaf at every index that was empty.

The model keeps the recursion of `fetch_nodes` over rounds, with fuel: on storage whose edges
have length zero the code does not return.  A panic (an assertion, an overflow of `NodeIndex`) is
`none`; logging is dropped, and what a comparison of leaves can still do is fail.
-/
import Sequencer.Patricia.LeafIndices
import Sequencer.Patricia.NodeSerde
import Sequencer.Lib.Collections

namespace Sequencer.Patricia

open NodeIndex

/-! ## 1. Storage, errors and configuration -/

/-- `StorageKey`. -/
abbrev StorageKey := List UInt8

/-- `Storage`, read through `mget`: the value under each key, if any. -/
abbrev Storage := StorageKey → Option StorageValue

/-- `Storage::mget`. -/
def mget (storage : Storage) (keys : List StorageKey) : List (Option StorageValue) :=
  keys.map storage

/-- `create_db_key`: the prefix, a colon and the suffix. -/
def createDbKey (storagePrefix suffix : List UInt8) : StorageKey :=
  storagePrefix ++ ":".toUTF8.data.toList ++ suffix

/-- `StorageError`. -/
inductive StorageError
  | missingKey (key : StorageKey)
  deriving DecidableEq, Repr

/-- `OriginalSkeletonTreeError`. -/
inductive OriginalSkeletonTreeError
  | deserialization (error : DeserializationError)
  | storageRead (error : StorageError)
  | readModificationsError (index : NodeIndex)
  deriving DecidableEq, Repr

/-- `LeafModifications`. -/
abbrev LeafModifications (L : Type) := HashMap NodeIndex L

/-- `OriginalSkeletonTreeConfig`. -/
structure OriginalSkeletonTreeConfig where
  compareModifiedLeaves : Bool
  deriving DecidableEq, Repr

/-- `OriginalSkeletonNode`. -/
inductive OriginalSkeletonNode
  | binary
  | edge (pathToBottom : PathToBottom)
  | unmodifiedSubTree (hash : Felt)
  deriving DecidableEq, Repr

/-- `OriginalSkeletonTreeImpl`. -/
structure OriginalSkeletonTreeImpl where
  nodes : HashMap NodeIndex OriginalSkeletonNode
  sortedLeafIndices : SortedLeafIndices

variable {L : Type} [Leaf L] [DecidableEq L]

/-- `Leaf::compare`: whether the modification at an index leaves the leaf as it was; an index
without a modification is an error. -/
def Leaf.compare (leafModifications : LeafModifications L) (index : NodeIndex) (previousLeaf : L) :
    Except OriginalSkeletonTreeError Bool :=
  match leafModifications.get index with
  | some newLeaf => .ok (decide (newLeaf = previousLeaf))
  | none => .error (.readModificationsError index)

/-! ## 2. One round of `fetch_nodes` -/

namespace OriginalSkeletonTreeImpl

/-- `calculate_subtrees_roots`, after `mget`: each value must be there, and decode as the node
its subtree's root holds. -/
def deserializeRoots :
    List ((SubTree Felt × Option StorageValue) × StorageKey) →
      Option (Except OriginalSkeletonTreeError (List (FilledNode L)))
  | [] => some (.ok [])
  | ((subtree, optionalVal), dbKey) :: rest =>
    match optionalVal with
    | none => some (.error (.storageRead (.missingKey dbKey)))
    | some val =>
      match FilledNode.deserialize subtree.rootHash val subtree.isLeaf with
      | none => none
      | some (.error e) => some (.error (.deserialization e))
      | some (.ok filledRoot) => (deserializeRoots rest).map (Except.map (filledRoot :: ·))

/-- `calculate_subtrees_roots`: a leaf is read under the prefix of its type, an inner node under
`InnerNode`'s. -/
def calculateSubtreesRoots (subtrees : List (SubTree Felt)) (storage : Storage) :
    Option (Except OriginalSkeletonTreeError (List (FilledNode L))) :=
  let dbKeys := subtrees.map fun subtree =>
    createDbKey
      (if subtree.isLeaf then Leaf.storagePrefix L else StarknetPrefix.innerNode.toStoragePrefix)
      subtree.rootHash.toBytesBe
  let dbVals := mget storage dbKeys
  deserializeRoots ((subtrees.zip dbVals).zip dbKeys)

end OriginalSkeletonTreeImpl

/-- What the loop of `fetch_nodes` changes: `self`, `next_subtrees` and `previous_leaves`. -/
structure FetchState (L : Type) where
  tree : OriginalSkeletonTreeImpl
  nextSubtrees : List (SubTree Felt)
  previousLeaves : Option (HashMap NodeIndex L)

namespace FetchState

/-- `self.nodes.insert`. -/
def insertNode (s : FetchState L) (index : NodeIndex) (node : OriginalSkeletonNode) : FetchState L :=
  { s with tree := { s.tree with nodes := (s.tree.nodes.insert index node).2 } }

/-- `handle_subtree`: a subtree goes down unless it is a leaf that need not be read; an
unmodified leaf is recorded as a sibling. -/
def handleSubtree (s : FetchState L) (subtree : SubTree Felt) (shouldFetchModifiedLeaves : Bool) :
    FetchState L :=
  if !subtree.isLeaf || (shouldFetchModifiedLeaves && !subtree.isUnmodified) then
    { s with nextSubtrees := s.nextSubtrees ++ [subtree] }
  else if subtree.isUnmodified then
    s.insertNode subtree.rootIndex (.unmodifiedSubTree subtree.rootHash)
  else s

end FetchState

namespace OriginalSkeletonTreeImpl

/-- `log_warning_for_empty_leaves`: when the configuration compares, every index must have a
modification. -/
def logWarningForEmptyLeaves (leafIndices : List NodeIndex) (leafModifications : LeafModifications L)
    (config : OriginalSkeletonTreeConfig) : Except OriginalSkeletonTreeError Unit :=
  if !config.compareModifiedLeaves then .ok ()
  else
    let emptyLeaf := Leaf.default (L := L)
    leafIndices.forM fun leafIndex =>
      (Leaf.compare leafModifications leafIndex emptyLeaf).map fun _ => ()

/-- The body of the loop of `fetch_nodes`: a subtree and the node read at its root. -/
def processFilledRoot (leafModifications : LeafModifications L)
    (config : OriginalSkeletonTreeConfig) (shouldFetchModifiedLeaves : Bool) (s : FetchState L)
    (filledRoot : FilledNode L) (subtree : SubTree Felt) :
    Option (Except OriginalSkeletonTreeError (FetchState L)) :=
  match filledRoot.data with
  | .binary ⟨leftHash, rightHash⟩ =>
    if subtree.isUnmodified then
      some (.ok (s.insertNode subtree.rootIndex (.unmodifiedSubTree filledRoot.hash)))
    else
      let s := s.insertNode subtree.rootIndex .binary
      match subtree.getChildrenSubtrees leftHash rightHash with
      | none => none
      | some (leftSubtree, rightSubtree) =>
        let s := s.handleSubtree leftSubtree shouldFetchModifiedLeaves
        some (.ok (s.handleSubtree rightSubtree shouldFetchModifiedLeaves))
  | .edge ⟨bottomHash, pathToBottom⟩ =>
    let s := s.insertNode subtree.rootIndex (.edge pathToBottom)
    if subtree.isUnmodified then
      match pathToBottom.bottomIndex subtree.rootIndex with
      | none => none
      | some bottomIndex => some (.ok (s.insertNode bottomIndex (.unmodifiedSubTree bottomHash)))
    else
      match subtree.getBottomSubtree pathToBottom bottomHash with
      | none => none
      | some (bottomSubtree, previouslyEmptyLeavesIndices) =>
        -- the indices the edge passes by were empty
        let previousLeaves := s.previousLeaves.map fun leaves =>
          leaves.extend (previouslyEmptyLeavesIndices.map fun idx => (idx, Leaf.default))
        let s := { s with previousLeaves }
        match logWarningForEmptyLeaves previouslyEmptyLeavesIndices leafModifications config with
        | .error e => some (.error e)
        | .ok () => some (.ok (s.handleSubtree bottomSubtree shouldFetchModifiedLeaves))
  | .leaf previousLeaf =>
    -- a leaf read as a sibling is only logged
    if subtree.isUnmodified then some (.ok s)
    else
      let compared :=
        if config.compareModifiedLeaves then Leaf.compare leafModifications subtree.rootIndex previousLeaf
        else .ok false
      match compared with
      | .error e => some (.error e)
      | .ok _ =>
        let previousLeaves := s.previousLeaves.map fun leaves =>
          (leaves.insert subtree.rootIndex previousLeaf).2
        some (.ok { s with previousLeaves })

/-- The loop of `fetch_nodes` over the subtrees and the nodes read at their roots. -/
def processFilledRoots (leafModifications : LeafModifications L)
    (config : OriginalSkeletonTreeConfig) (shouldFetchModifiedLeaves : Bool) :
    FetchState L → List (FilledNode L × SubTree Felt) →
      Option (Except OriginalSkeletonTreeError (FetchState L))
  | s, [] => some (.ok s)
  | s, (filledRoot, subtree) :: rest =>
    match processFilledRoot leafModifications config shouldFetchModifiedLeaves s filledRoot subtree with
    | some (.ok s) => processFilledRoots leafModifications config shouldFetchModifiedLeaves s rest
    | failed => failed

/-! ## 3. The rounds, and the entry points -/

/-- `fetch_nodes`: one round of subtrees after another, until none is left. -/
def fetchNodes (fuel : Nat) (self : OriginalSkeletonTreeImpl) (subtrees : List (SubTree Felt))
    (storage : Storage) (leafModifications : LeafModifications L)
    (config : OriginalSkeletonTreeConfig) (previousLeaves : Option (HashMap NodeIndex L)) :
    Option (Except OriginalSkeletonTreeError (OriginalSkeletonTreeImpl × Option (HashMap NodeIndex L))) :=
  match fuel with
  | 0 => none
  | fuel + 1 =>
    if subtrees.isEmpty then some (.ok (self, previousLeaves))
    else
      let shouldFetchModifiedLeaves := config.compareModifiedLeaves || previousLeaves.isSome
      match calculateSubtreesRoots (L := L) subtrees storage with
      | none => none
      | some (.error e) => some (.error e)
      | some (.ok filledRoots) =>
        match processFilledRoots leafModifications config shouldFetchModifiedLeaves
            ⟨self, [], previousLeaves⟩ (filledRoots.zip subtrees) with
        | none => none
        | some (.error e) => some (.error e)
        | some (.ok s) =>
          fetchNodes fuel s.tree s.nextSubtrees storage leafModifications config s.previousLeaves

/-- `create_unmodified`. -/
def createUnmodified (rootHash : Felt) : OriginalSkeletonTreeImpl :=
  ⟨[(root, .unmodifiedSubTree rootHash)], []⟩

/-- `create_empty`. -/
def createEmpty (sortedLeafIndices : SortedLeafIndices) : OriginalSkeletonTreeImpl :=
  ⟨[], sortedLeafIndices⟩

/-- `create_impl`. -/
def createImpl (fuel : Nat) (storage : Storage) (rootHash : Felt)
    (sortedLeafIndices : SortedLeafIndices) (config : OriginalSkeletonTreeConfig)
    (leafModifications : LeafModifications L) :
    Option (Except OriginalSkeletonTreeError OriginalSkeletonTreeImpl) :=
  if sortedLeafIndices.isEmpty then some (.ok (createUnmodified rootHash))
  else if rootHash = Felt.zero then
    match logWarningForEmptyLeaves sortedLeafIndices leafModifications config with
    | .error e => some (.error e)
    | .ok () => some (.ok (createEmpty sortedLeafIndices))
  else
    let mainSubtree : SubTree Felt := ⟨sortedLeafIndices, root, rootHash⟩
    match fetchNodes fuel ⟨[], sortedLeafIndices⟩ [mainSubtree] storage leafModifications config
        none with
    | none => none
    | some (.error e) => some (.error e)
    | some (.ok (skeletonTree, _)) => some (.ok skeletonTree)

/-- `create_and_get_previous_leaves_impl`. -/
def createAndGetPreviousLeavesImpl (fuel : Nat) (storage : Storage) (rootHash : Felt)
    (sortedLeafIndices : SortedLeafIndices) (leafModifications : LeafModifications L)
    (config : OriginalSkeletonTreeConfig) :
    Option (Except OriginalSkeletonTreeError (OriginalSkeletonTreeImpl × HashMap NodeIndex L)) :=
  if sortedLeafIndices.isEmpty then some (.ok (createUnmodified rootHash, []))
  else if rootHash = Felt.zero then
    some (.ok (createEmpty sortedLeafIndices,
      HashMap.extend [] (sortedLeafIndices.map fun idx => (idx, Leaf.default))))
  else
    let mainSubtree : SubTree Felt := ⟨sortedLeafIndices, root, rootHash⟩
    match fetchNodes fuel ⟨[], sortedLeafIndices⟩ [mainSubtree] storage leafModifications config
        (some []) with
    | none => none
    | some (.error e) => some (.error e)
    | some (.ok (skeletonTree, leaves)) => some (.ok (skeletonTree, leaves.getD []))

/-- `OriginalSkeletonTree::create`. -/
def create (fuel : Nat) (storage : Storage) (rootHash : Felt) (sortedLeafIndices : SortedLeafIndices)
    (config : OriginalSkeletonTreeConfig) (leafModifications : LeafModifications L) :
    Option (Except OriginalSkeletonTreeError OriginalSkeletonTreeImpl) :=
  createImpl fuel storage rootHash sortedLeafIndices config leafModifications

/-- `OriginalSkeletonTree::create_and_get_previous_leaves`. -/
def createAndGetPreviousLeaves (fuel : Nat) (storage : Storage) (rootHash : Felt)
    (sortedLeafIndices : SortedLeafIndices) (config : OriginalSkeletonTreeConfig)
    (leafModifications : LeafModifications L) :
    Option (Except OriginalSkeletonTreeError (OriginalSkeletonTreeImpl × HashMap NodeIndex L)) :=
  createAndGetPreviousLeavesImpl fuel storage rootHash sortedLeafIndices leafModifications config

end OriginalSkeletonTreeImpl

end Sequencer.Patricia
