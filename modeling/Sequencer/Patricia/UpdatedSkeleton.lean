/-
# The updated skeleton

Once the original skeleton is read, `UpdatedSkeletonTreeImpl::create` works out the shape of the
tree after the update (`updated_skeleton_tree/create_tree_helper.rs`, `tree.rs`).  The new and
modified leaves, and the unmodified subtrees of the original skeleton, are final from the start
(`finalize_bottom_layer`).  The inner nodes above them are worked out from the root down and
settled from the leaves up (`finalize_middle_layers`).  Each call returns what the node at its
index becomes (`TempSkeletonNode`): nothing, a leaf, or a node of an original kind.  The caller
writes it once its own node is known: a binary node cannot change its form, an edge may still
grow at its top.  Where the tree was empty the shape follows the leaves alone
(`update_node_in_empty_tree`).  Where an edge passes by a new leaf it splits (`update_edge_node`),
and the part of it that stays is written into the original skeleton as if it had been there (a
fake original).

The model threads the two maps the code mutates, the updated nodes and the original skeleton,
through the calls, and bounds the recursion by fuel: each call goes at least one level down.  A
panic (an assertion, an `unreachable!`, an `expect`) is `none`.  `create` drops the original
skeleton the code leaves behind, with its fake originals: no caller reads it again.
-/
import Sequencer.Patricia.OriginalSkeleton

namespace Sequencer.Patricia

open NodeIndex

/-! ## 1. Nodes, leaves and errors -/

/-- `SkeletonLeaf`: all the updated skeleton knows of a modified leaf. -/
inductive SkeletonLeaf
  | zero
  | nonZero
  deriving DecidableEq, Repr

/-- `SkeletonLeaf::is_zero`. -/
def SkeletonLeaf.isZero (leaf : SkeletonLeaf) : Bool := leaf == .zero

/-- `UpdatedSkeletonNode`. -/
inductive UpdatedSkeletonNode
  | binary
  | edge (pathToBottom : PathToBottom)
  | unmodifiedSubTree (hash : Felt)
  | leaf
  deriving DecidableEq, Repr

/-- `UpdatedSkeletonTreeError`. -/
inductive UpdatedSkeletonTreeError
  | missingNode (index : NodeIndex)
  deriving DecidableEq, Repr

/-- `UpdatedSkeletonNodeMap`. -/
abbrev UpdatedSkeletonNodeMap := HashMap NodeIndex UpdatedSkeletonNode

/-- `OriginalSkeletonNodeMap`. -/
abbrev OriginalSkeletonNodeMap := HashMap NodeIndex OriginalSkeletonNode

/-- `UpdatedSkeletonTreeImpl`. -/
structure UpdatedSkeletonTreeImpl where
  skeletonTree : UpdatedSkeletonNodeMap

/-- `TempSkeletonNode`: what the node at an index becomes, before it is written. -/
inductive TempSkeletonNode
  /-- a deleted node -/
  | empty
  /-- a new or modified leaf -/
  | leaf
  | original (node : OriginalSkeletonNode)
  deriving DecidableEq, Repr

/-- `TempSkeletonNode::is_empty`. -/
def TempSkeletonNode.isEmpty (node : TempSkeletonNode) : Bool := node == .empty

/-- `SortedLeafIndices::new`, which sorts the indices it is given. -/
def SortedLeafIndices.new (indices : List NodeIndex) : SortedLeafIndices :=
  indices.insertionSort (· ≤ ·)

/-! ## 2. The helpers of `create_tree_helper.rs` -/

/-- `get_path_to_lca`: the path from the root to the lowest common ancestor of the first and the
last index, which panics on no index. -/
def getPathToLca (rootIndex : NodeIndex) (subtreeIndices : SortedLeafIndices) :
    Option PathToBottom := do
  let firstIndex ← subtreeIndices.head?
  let lca ← if subtreeIndices.length = 1 then some firstIndex
    else subtreeIndices.getLast?.bind firstIndex.getLca
  rootIndex.getPathToDescendant lca

/-- `has_leaves_on_both_sides`. -/
def hasLeavesOnBothSides (rootIndex : NodeIndex) (leafIndices : SortedLeafIndices) : Option Bool :=
  if leafIndices.isEmpty then some false
  else (splitLeaves rootIndex leafIndices).map fun leavesInSides =>
    !leavesInSides.1.isEmpty && !leavesInSides.2.isEmpty

namespace UpdatedSkeletonTreeImpl

/-- `finalize_bottom_layer`: the non-zero modified leaves, and the unmodified subtrees of the
original skeleton, collected into a map. -/
def finalizeBottomLayer (originalSkeleton : OriginalSkeletonTreeImpl)
    (leafModifications : LeafModifications SkeletonLeaf) : UpdatedSkeletonNodeMap :=
  HashMap.extend []
    ((leafModifications.filter fun modification => !modification.2.isZero).map
        (fun modification => (modification.1, .leaf)) ++
      originalSkeleton.nodes.filterMap fun entry =>
        match entry.2 with
        | .unmodifiedSubTree hash => some (entry.1, .unmodifiedSubTree hash)
        | .binary | .edge _ => none)

/-- The body of the loop of `node_from_binary_data` over the two children of a binary node: a
child of an original kind is written now, a leaf or an unmodified subtree already is. -/
def finalizeChild (self : UpdatedSkeletonTreeImpl) (index : NodeIndex) (node : TempSkeletonNode) :
    Option UpdatedSkeletonTreeImpl :=
  match node with
  | .leaf => if self.skeletonTree.containsKey index then some self else none
  | .empty => none
  | .original .binary => some ⟨(self.skeletonTree.insert index .binary).2⟩
  | .original (.edge pathToBottom) => some ⟨(self.skeletonTree.insert index (.edge pathToBottom)).2⟩
  | .original (.unmodifiedSubTree _) => some self

/-- `node_from_edge_data`: the node at the top of an edge to `bottomIndex`, given what the bottom
became. -/
def nodeFromEdgeData (self : UpdatedSkeletonTreeImpl) (path : PathToBottom)
    (bottomIndex : NodeIndex) (bottom : TempSkeletonNode) :
    Option (UpdatedSkeletonTreeImpl × TempSkeletonNode) :=
  match bottom with
  | .empty => some (self, .empty)
  | .leaf =>
    if self.skeletonTree.containsKey bottomIndex then some (self, .original (.edge path)) else none
  | .original (.edge pathToBottom) =>
    -- two edges in a row become one
    (path.concatPaths pathToBottom).map fun path => (self, .original (.edge path))
  | .original .binary =>
    -- a binary descendant cannot change its form
    some (⟨(self.skeletonTree.insert bottomIndex .binary).2⟩, .original (.edge path))
  | .original (.unmodifiedSubTree _) => some (self, .original (.edge path))

/-- `node_from_binary_data`: the node at `rootIndex`, given what its two children became. -/
def nodeFromBinaryData (self : UpdatedSkeletonTreeImpl) (rootIndex : NodeIndex)
    (left right : TempSkeletonNode) : Option (UpdatedSkeletonTreeImpl × TempSkeletonNode) := do
  let (leftIndex, rightIndex) ← rootIndex.getChildrenIndices
  if !left.isEmpty && !right.isEmpty then
    let self ← [(leftIndex, left), (rightIndex, right)].foldlM
      (fun self child => finalizeChild self child.1 child.2) self
    pure (self, .original .binary)
  else
    -- at least one child is empty: an edge to the other one
    let (childNode, childIndex, childDirection) :=
      if right = .empty then (left, leftIndex, PathToBottom.leftChild)
      else (right, rightIndex, PathToBottom.rightChild)
    nodeFromEdgeData self childDirection childIndex childNode

/-! ## 3. The recursion -/

/-- `update_node_in_empty_tree`: below a node where the tree was empty, the modified leaves alone
give the shape. -/
def updateNodeInEmptyTree : Nat → UpdatedSkeletonTreeImpl → NodeIndex → SortedLeafIndices →
    Option (UpdatedSkeletonTreeImpl × TempSkeletonNode)
  | 0, _, _, _ => none
  | fuel + 1, self, rootIndex, leafIndices =>
    if rootIndex.isLeaf then
      -- as the tree was empty, the leaf is new
      if leafIndices.length = 1 ∧ leafIndices.head? = some rootIndex then
        -- a zero leaf was not finalized: the deletion of an empty leaf
        if !self.skeletonTree.containsKey rootIndex then some (self, .empty)
        else some (self, .leaf)
      else none
    else
      match hasLeavesOnBothSides rootIndex leafIndices with
      | none => none
      | some true => do
        let (leftIndices, rightIndices) ← splitLeaves rootIndex leafIndices
        let (leftChildIndex, rightChildIndex) ← rootIndex.getChildrenIndices
        let (self, leftChild) ← updateNodeInEmptyTree fuel self leftChildIndex leftIndices
        let (self, rightChild) ← updateNodeInEmptyTree fuel self rightChildIndex rightIndices
        nodeFromBinaryData self rootIndex leftChild rightChild
      | some false => do
        let pathToLca ← getPathToLca rootIndex leafIndices
        let bottomIndex ← pathToLca.bottomIndex rootIndex
        let (self, bottom) ← updateNodeInEmptyTree fuel self bottomIndex leafIndices
        nodeFromEdgeData self pathToLca bottomIndex bottom

/-- `update_edge_node`, given the two recursions it calls. -/
def updateEdgeNode
    (updateNodeInNonemptyTree : UpdatedSkeletonTreeImpl → NodeIndex → OriginalSkeletonNodeMap →
      SortedLeafIndices →
        Option (UpdatedSkeletonTreeImpl × OriginalSkeletonNodeMap × TempSkeletonNode))
    (updateNodeInEmptyTree : UpdatedSkeletonTreeImpl → NodeIndex → SortedLeafIndices →
      Option (UpdatedSkeletonTreeImpl × TempSkeletonNode))
    (self : UpdatedSkeletonTreeImpl) (rootIndex : NodeIndex) (pathToBottom : PathToBottom)
    (originalSkeleton : OriginalSkeletonNodeMap) (leafIndices : SortedLeafIndices) :
    Option (UpdatedSkeletonTreeImpl × OriginalSkeletonNodeMap × TempSkeletonNode) := do
  let (leftChildIndex, rightChildIndex) ← rootIndex.getChildrenIndices
  let (leftIndices, rightIndices) ← splitLeaves rootIndex leafIndices
  let wasLeftNonempty ← pathToBottom.isLeftDescendant
  if (!rightIndices.isEmpty && wasLeftNonempty) || (!leftIndices.isEmpty && !wasLeftNonempty) then
    -- a new leaf on the side the edge left empty: the root becomes binary
    let (nonemptySubtreeChildIndex, nonemptySubtreeLeafIndices, emptySubtreeChildIndex,
        emptySubtreeLeafIndices) :=
      if wasLeftNonempty then (leftChildIndex, leftIndices, rightChildIndex, rightIndices)
      else (rightChildIndex, rightIndices, leftChildIndex, leftIndices)
    -- below the root, the rest of the edge is a fake original
    let originalSkeleton ← if pathToBottom.length > 1 then
        (pathToBottom.removeFirstEdges 1).toOption.map fun fakeOriginal =>
          (originalSkeleton.insert nonemptySubtreeChildIndex (.edge fakeOriginal)).2
      else some originalSkeleton
    let (self, originalSkeleton, origNonemptySubtreeChild) ← updateNodeInNonemptyTree self
      nonemptySubtreeChildIndex originalSkeleton nonemptySubtreeLeafIndices
    let (self, origEmptySubtreeChild) ←
      updateNodeInEmptyTree self emptySubtreeChildIndex emptySubtreeLeafIndices
    let (left, right) :=
      if wasLeftNonempty then (origNonemptySubtreeChild, origEmptySubtreeChild)
      else (origEmptySubtreeChild, origNonemptySubtreeChild)
    let (self, node) ← nodeFromBinaryData self rootIndex left right
    pure (self, originalSkeleton, node)
  else
    -- every leaf is on the edge's side: a new edge to where the leaves and the bottom part
    let pathToLeavesLca ← getPathToLca rootIndex leafIndices
    let leavesLcaIndex ← pathToLeavesLca.bottomIndex rootIndex
    let bottomIndex ← pathToBottom.bottomIndex rootIndex
    let pathToNewBottom ←
      getPathToLca rootIndex (SortedLeafIndices.new [leavesLcaIndex, bottomIndex])
    let newBottomIndex ← pathToNewBottom.bottomIndex rootIndex
    let originalSkeleton ← if newBottomIndex = bottomIndex then
        -- every leaf is below the bottom
        if pathToNewBottom = pathToBottom then some originalSkeleton else none
      else
        (pathToBottom.removeFirstEdges pathToNewBottom.length).toOption.map fun fakeOriginal =>
          (originalSkeleton.insert newBottomIndex (.edge fakeOriginal)).2
    let (self, originalSkeleton, bottom) ←
      updateNodeInNonemptyTree self newBottomIndex originalSkeleton leafIndices
    let (self, node) ← nodeFromEdgeData self pathToNewBottom newBottomIndex bottom
    pure (self, originalSkeleton, node)

/-- `update_node_in_nonempty_tree`: below a node of the original skeleton, with the modified
leaves below it. -/
def updateNodeInNonemptyTree : Nat → UpdatedSkeletonTreeImpl → NodeIndex →
    OriginalSkeletonNodeMap → SortedLeafIndices →
      Option (UpdatedSkeletonTreeImpl × OriginalSkeletonNodeMap × TempSkeletonNode)
  | 0, _, _, _, _ => none
  | fuel + 1, self, rootIndex, originalSkeleton, leafIndices =>
    if rootIndex.isLeaf && leafIndices.contains rootIndex then
      -- a new or modified leaf was finalized, a deleted one was not
      if self.skeletonTree.containsKey rootIndex then some (self, originalSkeleton, .leaf)
      else some (self, originalSkeleton, .empty)
    else
      match originalSkeleton.get rootIndex with
      | none => none
      | some originalNode =>
        if leafIndices.isEmpty then
          match originalNode with
          | .binary => none
          | .edge _ | .unmodifiedSubTree _ => some (self, originalSkeleton, .original originalNode)
        else
          match originalNode with
          | .unmodifiedSubTree _ => none
          | .binary => do
            let (leftIndices, rightIndices) ← splitLeaves rootIndex leafIndices
            let (leftChildIndex, rightChildIndex) ← rootIndex.getChildrenIndices
            let (self, originalSkeleton, left) ←
              updateNodeInNonemptyTree fuel self leftChildIndex originalSkeleton leftIndices
            let (self, originalSkeleton, right) ←
              updateNodeInNonemptyTree fuel self rightChildIndex originalSkeleton rightIndices
            let (self, node) ← nodeFromBinaryData self rootIndex left right
            pure (self, originalSkeleton, node)
          | .edge pathToBottom =>
            updateEdgeNode (updateNodeInNonemptyTree fuel) (updateNodeInEmptyTree fuel) self
              rootIndex pathToBottom originalSkeleton leafIndices

/-- `finalize_middle_layers`: from the root, in the empty tree or in the original skeleton. -/
def finalizeMiddleLayers (fuel : Nat) (self : UpdatedSkeletonTreeImpl)
    (originalSkeleton : OriginalSkeletonTreeImpl) :
    Option (UpdatedSkeletonTreeImpl × TempSkeletonNode) :=
  let sortedLeafIndices := originalSkeleton.sortedLeafIndices
  if originalSkeleton.nodes.isEmpty then updateNodeInEmptyTree fuel self root sortedLeafIndices
  else
    (updateNodeInNonemptyTree fuel self root originalSkeleton.nodes sortedLeafIndices).map
      fun result => (result.1, result.2.2)

/-! ## 4. The entry points of `tree.rs` -/

/-- `create_unmodified`: with no modification, the root of the original skeleton, which must be
an unmodified subtree. -/
def createUnmodified (originalSkeleton : OriginalSkeletonTreeImpl) :
    Option (Except UpdatedSkeletonTreeError UpdatedSkeletonTreeImpl) :=
  match originalSkeleton.nodes.get root with
  | none => some (.error (.missingNode root))
  | some (.unmodifiedSubTree rootHash) => some (.ok ⟨[(root, .unmodifiedSubTree rootHash)]⟩)
  | some _ => none

/-- `UpdatedSkeletonTree::create`. -/
def create (fuel : Nat) (originalSkeleton : OriginalSkeletonTreeImpl)
    (leafModifications : LeafModifications SkeletonLeaf) :
    Option (Except UpdatedSkeletonTreeError UpdatedSkeletonTreeImpl) :=
  if leafModifications.isEmpty then createUnmodified originalSkeleton
  else
    let skeletonTree := finalizeBottomLayer originalSkeleton leafModifications
    match finalizeMiddleLayers fuel ⟨skeletonTree⟩ originalSkeleton with
    | none => none
    | some (updatedSkeletonTree, tempRootNode) =>
      -- finalize the root
      match tempRootNode with
      | .empty =>
        if updatedSkeletonTree.skeletonTree.isEmpty then some (.ok updatedSkeletonTree) else none
      | .leaf => none
      | .original originalSkeletonNode =>
        let newNode : Option UpdatedSkeletonNode :=
          match originalSkeletonNode with
          | .binary => some .binary
          | .edge pathToBottom => some (.edge pathToBottom)
          | .unmodifiedSubTree _ => none
        match newNode with
        | none => none
        | some newNode =>
          match updatedSkeletonTree.skeletonTree.insert root newNode with
          | (some _, _) => none
          | (none, skeletonTree) => some (.ok ⟨skeletonTree⟩)

/-- `UpdatedSkeletonTree::is_empty`: no node, or an unmodified root with the hash of the empty
tree; a map with nodes but no root panics. -/
def isEmpty (self : UpdatedSkeletonTreeImpl) : Option Bool :=
  match self.skeletonTree.get root with
  | some (.unmodifiedSubTree rootHash) => some (rootHash == Felt.zero)
  | some _ => some false
  | none => if self.skeletonTree.isEmpty then some true else none

/-- `UpdatedSkeletonTree::get_node`. -/
def getNode (self : UpdatedSkeletonTreeImpl) (index : NodeIndex) :
    Except UpdatedSkeletonTreeError UpdatedSkeletonNode :=
  match self.skeletonTree.get index with
  | some node => .ok node
  | none => .error (.missingNode index)

end UpdatedSkeletonTreeImpl

end Sequencer.Patricia
