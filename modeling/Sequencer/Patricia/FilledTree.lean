/-
# The filled tree

Once the updated skeleton is built, `FilledTreeImpl` computes the hashes of the updated trie
(`filled_tree/tree.rs`).  `compute_filled_tree_rec` goes down the skeleton from the root: the two
children of a binary node, each in a task of its own, the bottom of an edge, the hash an
unmodified subtree carries, and at a leaf the leaf itself, taken from the modifications or
computed from its input.  The hash of a node is `TreeHashFunction::compute_node_hash` of its data,
and each node that is computed is written once into a map that holds a placeholder for it.

The model runs the two tasks one after the other, the left one first, as its result is awaited
first; they write to different placeholders.  A task that panics is awaited as a `JoinError`;
elsewhere a panic is `none`.  The maps behind `Arc<Mutex<..>>` are threaded through the calls
(`FillState`), and a lock is never poisoned.  The recursion is bounded by fuel, one level per
call; running out of fuel is `none` too.
-/
import Sequencer.Patricia.UpdatedSkeleton

namespace Sequencer.Patricia

open NodeIndex

/-! ## 1. Errors, the hash function and the leaves -/

/-- `LeafError`.  The text of a computation error is kept as it is given. -/
inductive LeafError
  | leafComputationError (message : String)
  | missingLeafModificationData (index : NodeIndex)
  deriving DecidableEq, Repr

/-- `FilledTreeError`, without the variants of a poisoned lock and of `serde_json`, which no
modelled function raises.  The text of the value found at a double update is not kept. -/
inductive FilledTreeError
  | deletedLeafInSkeleton (index : NodeIndex)
  | doubleUpdate (index : NodeIndex)
  | leaf (leafError : LeafError) (leafIndex : NodeIndex)
  | missingNodePlaceholder (index : NodeIndex)
  | missingLeafInput (index : NodeIndex)
  | updatedSkeletonError (error : UpdatedSkeletonTreeError)
  /-- a spawned task that panicked -/
  | joinError
  deriving DecidableEq, Repr

/-- `TreeHashFunction`, through the one function of it the filled tree calls:
`compute_node_hash`. -/
class TreeHashFunction (L : Type) where
  computeNodeHash : NodeData L → Felt

/-- What the filled tree uses of the trait `Leaf`: `is_empty`, and `create` with the types of
its input and output. -/
class FilledLeaf (L : Type) where
  Input : Type
  Output : Type
  isEmpty : L → Bool
  create : Input → Except LeafError (L × Output)

instance : FilledLeaf StarknetStorageValue where
  Input := StarknetStorageValue
  Output := Unit
  isEmpty leaf := leaf.value == Felt.zero
  create input := .ok (input, ())

instance : FilledLeaf CompiledClassHash where
  Input := CompiledClassHash
  Output := Unit
  isEmpty leaf := leaf.hash == Felt.zero
  create input := .ok (input, ())

variable {L : Type}

/-- `Leaf::from_modifications`: the leaf of an index, which must be modified. -/
def Leaf.fromModifications (index : NodeIndex) (leafModifications : LeafModifications L) :
    Except LeafError L :=
  match leafModifications.get index with
  | some leafData => .ok leafData
  | none => .error (.missingLeafModificationData index)

/-- `FilledTreeImpl`. -/
structure FilledTreeImpl (L : Type) where
  treeMap : HashMap NodeIndex (FilledNode L)
  rootHash : Felt

section Storage

variable [Leaf L]

/-- `DBObject::get_prefix` of a filled node: a leaf's own prefix, or `InnerNode`'s. -/
def FilledNode.getPrefix (self : FilledNode L) : List UInt8 :=
  match self.data with
  | .binary _ | .edge _ => StarknetPrefix.innerNode.toStoragePrefix
  | .leaf _ => Leaf.storagePrefix L

/-- `FilledNode::db_key`: the prefix and the hash. -/
def FilledNode.dbKey (self : FilledNode L) : StorageKey :=
  createDbKey self.getPrefix self.hash.toBytesBe

/-- `FilledTree::serialize`: every node under its key. -/
def FilledTreeImpl.serialize (self : FilledTreeImpl L) : HashMap StorageKey StorageValue :=
  HashMap.extend [] (self.treeMap.map fun entry => (entry.2.dbKey, entry.2.serialize))

end Storage

/-! ## 2. The output maps -/

namespace FilledTreeImpl

/-- `initialize_filled_tree_output_map_with_placeholders`: an empty slot for every node of the
skeleton but an unmodified subtree. -/
def initializeFilledTreeOutputMapWithPlaceholders (updatedSkeleton : UpdatedSkeletonTreeImpl) :
    HashMap NodeIndex (Option (FilledNode L)) :=
  updatedSkeleton.skeletonTree.foldl (fun filledTreeOutputMap entry =>
    match entry.2 with
    | .unmodifiedSubTree _ => filledTreeOutputMap
    | .binary | .edge _ | .leaf => (filledTreeOutputMap.insert entry.1 none).2) []

section Leaves

variable [FilledLeaf L]

/-- `initialize_leaf_output_map_with_placeholders`: an empty slot for every leaf input. -/
def initializeLeafOutputMapWithPlaceholders
    (leafIndexToLeafInput : HashMap NodeIndex (FilledLeaf.Input L)) :
    HashMap NodeIndex (Option (FilledLeaf.Output L)) :=
  HashMap.extend [] (leafIndexToLeafInput.map fun entry => (entry.1, none))

/-- `wrap_leaf_inputs_for_interior_mutability`: every input in a slot of its own. -/
def wrapLeafInputsForInteriorMutability
    (leafIndexToLeafInput : HashMap NodeIndex (FilledLeaf.Input L)) :
    HashMap NodeIndex (Option (FilledLeaf.Input L)) :=
  HashMap.extend [] (leafIndexToLeafInput.map fun entry => (entry.1, some entry.2))

end Leaves

/-- `write_to_output_map`: fills the empty slot of an index; a filled slot is a double update, and
an index without a slot has no placeholder. -/
def writeToOutputMap {V : Type} (outputMap : HashMap NodeIndex (Option V)) (index : NodeIndex)
    (output : V) : Except FilledTreeError (HashMap NodeIndex (Option V)) :=
  match outputMap.get index with
  | some (some _) => .error (.doubleUpdate index)
  | some none => .ok (outputMap.insert index (some output)).2
  | none => .error (.missingNodePlaceholder index)

/-- `remove_arc_mutex_and_option_from_output_map`: the filled slots; an empty one panics when
asked to. -/
def removeArcMutexAndOptionFromOutputMap {V : Type} (outputMap : HashMap NodeIndex (Option V))
    (panicIfEmptyPlaceholder : Bool) : Option (HashMap NodeIndex V) :=
  outputMap.foldlM (fun hashMapOut entry =>
    match entry.2 with
    | some unwrappedValue => some (hashMapOut.insert entry.1 unwrappedValue).2
    | none => if panicIfEmptyPlaceholder then none else some hashMapOut) []

/-! ## 3. The recursion -/

variable [FilledLeaf L] [TreeHashFunction L]

/-- What `compute_filled_tree_rec` changes: the three maps it shares with its tasks. -/
structure FillState (L : Type) [FilledLeaf L] where
  leafIndexToLeafInput : HashMap NodeIndex (Option (FilledLeaf.Input L))
  filledTreeOutputMap : HashMap NodeIndex (Option (FilledNode L))
  leafIndexToLeafOutput : HashMap NodeIndex (Option (FilledLeaf.Output L))

/-- `get_or_compute_leaf`: the modified leaf when there are modifications; otherwise the input,
taken out of its slot (an empty slot panics), and the leaf `Leaf::create` computes from it. -/
def getOrComputeLeaf (leafModifications : Option (LeafModifications L))
    (leafIndexToLeafInput : HashMap NodeIndex (Option (FilledLeaf.Input L))) (index : NodeIndex) :
    Option (Except FilledTreeError
      ((L × Option (FilledLeaf.Output L)) × HashMap NodeIndex (Option (FilledLeaf.Input L)))) :=
  match leafModifications with
  | some leafModifications =>
    match Leaf.fromModifications index leafModifications with
    | .error leafErr => some (.error (.leaf leafErr index))
    | .ok leafData => some (.ok ((leafData, none), leafIndexToLeafInput))
  | none =>
    match leafIndexToLeafInput.get index with
    | none => some (.error (.missingLeafInput index))
    | some none => none
    | some (some leafInput) =>
      let leafIndexToLeafInput := (leafIndexToLeafInput.insert index none).2
      match FilledLeaf.create leafInput with
      | .error leafErr => some (.error (.leaf leafErr index))
      | .ok (leafData, leafOutput) => some (.ok ((leafData, some leafOutput), leafIndexToLeafInput))

/-- `2.into()`, the factor from a node to its left child, is an index. -/
theorem two_le_max : 2 ≤ NodeIndex.max := by decide

/-- A spawned task, awaited: its panic comes back as a `JoinError`. -/
def awaitTask {α : Type} : Option (Except FilledTreeError α) → Except FilledTreeError α
  | none => .error .joinError
  | some result => result

/-- `compute_filled_tree_rec`: the hash of the node at `index`, with every node computed below it
written into the output map. -/
def computeFilledTreeRec (fuel : Nat) (updatedSkeleton : UpdatedSkeletonTreeImpl)
    (index : NodeIndex) (leafModifications : Option (LeafModifications L)) (s : FillState L) :
    Option (Except FilledTreeError (Felt × FillState L)) :=
  match fuel with
  | 0 => none
  | fuel + 1 =>
    match updatedSkeleton.getNode index with
    | .error e => some (.error (.updatedSkeletonError e))
    | .ok .binary =>
      match index.mul ⟨2, two_le_max⟩ with
      | none => none
      | some leftIndex =>
        match leftIndex.add root with
        | none => none
        | some rightIndex =>
          -- the left task is awaited first; the right one runs on the maps the left one leaves
          match awaitTask (computeFilledTreeRec fuel updatedSkeleton leftIndex leafModifications s) with
          | .error e => some (.error e)
          | .ok (leftHash, s) =>
            match awaitTask
                (computeFilledTreeRec fuel updatedSkeleton rightIndex leafModifications s) with
            | .error e => some (.error e)
            | .ok (rightHash, s) =>
              let data : NodeData L := .binary ⟨leftHash, rightHash⟩
              let hash := TreeHashFunction.computeNodeHash data
              match writeToOutputMap s.filledTreeOutputMap index ⟨hash, data⟩ with
              | .error e => some (.error e)
              | .ok filledTreeOutputMap => some (.ok (hash, { s with filledTreeOutputMap }))
    | .ok (.edge pathToBottom) =>
      match PathToBottom.computeBottomIndex index pathToBottom with
      | none => none
      | some bottomNodeIndex =>
        match computeFilledTreeRec fuel updatedSkeleton bottomNodeIndex leafModifications s with
        | none => none
        | some (.error e) => some (.error e)
        | some (.ok (bottomHash, s)) =>
          let data : NodeData L := .edge ⟨bottomHash, pathToBottom⟩
          let hash := TreeHashFunction.computeNodeHash data
          match writeToOutputMap s.filledTreeOutputMap index ⟨hash, data⟩ with
          | .error e => some (.error e)
          | .ok filledTreeOutputMap => some (.ok (hash, { s with filledTreeOutputMap }))
    | .ok (.unmodifiedSubTree hashResult) => some (.ok (hashResult, s))
    | .ok .leaf =>
      match getOrComputeLeaf leafModifications s.leafIndexToLeafInput index with
      | none => none
      | some (.error e) => some (.error e)
      | some (.ok ((leafData, leafOutput), leafIndexToLeafInput)) =>
        if FilledLeaf.isEmpty leafData then some (.error (.deletedLeafInSkeleton index))
        else
          let data : NodeData L := .leaf leafData
          let hash := TreeHashFunction.computeNodeHash data
          match writeToOutputMap s.filledTreeOutputMap index ⟨hash, data⟩ with
          | .error e => some (.error e)
          | .ok filledTreeOutputMap =>
            match leafOutput with
            | none => some (.ok (hash, { s with leafIndexToLeafInput, filledTreeOutputMap }))
            | some output =>
              match writeToOutputMap s.leafIndexToLeafOutput index output with
              | .error e => some (.error e)
              | .ok leafIndexToLeafOutput =>
                some (.ok (hash, ⟨leafIndexToLeafInput, filledTreeOutputMap, leafIndexToLeafOutput⟩))

/-- An unmodified subtree is not read further: its hash is the one the skeleton carries. -/
theorem computeFilledTreeRec_of_unmodified {fuel : Nat} {updatedSkeleton : UpdatedSkeletonTreeImpl}
    {index : NodeIndex} {hash : Felt}
    (h : updatedSkeleton.getNode index = .ok (.unmodifiedSubTree hash))
    (leafModifications : Option (LeafModifications L)) (s : FillState L) :
    computeFilledTreeRec (fuel + 1) updatedSkeleton index leafModifications s = some (.ok (hash, s)) := by
  simp [computeFilledTreeRec, h]

/-! ## 4. The entry points -/

/-- `create_unmodified`: the root must be an unmodified subtree, or it panics. -/
def createUnmodified (updatedSkeleton : UpdatedSkeletonTreeImpl) :
    Option (Except FilledTreeError (FilledTreeImpl L)) :=
  match updatedSkeleton.getNode root with
  | .error e => some (.error (.updatedSkeletonError e))
  | .ok (.unmodifiedSubTree rootHash) => some (.ok ⟨[], rootHash⟩)
  | .ok _ => none

/-- `create_empty`: the root hash of the empty tree. -/
def createEmpty : FilledTreeImpl L := ⟨[], Felt.zero⟩

/-- `FilledTree::create`: the leaves computed from their inputs, with their outputs. -/
def create (fuel : Nat) (updatedSkeleton : UpdatedSkeletonTreeImpl)
    (leafIndexToLeafInput : HashMap NodeIndex (FilledLeaf.Input L)) :
    Option (Except FilledTreeError (FilledTreeImpl L × HashMap NodeIndex (FilledLeaf.Output L))) :=
  if leafIndexToLeafInput.isEmpty then
    (createUnmodified updatedSkeleton).map (Except.map fun unmodified => (unmodified, []))
  else
    match updatedSkeleton.isEmpty with
    | none => none
    | some true => some (.ok (createEmpty, []))
    | some false =>
      let s : FillState L :=
        ⟨wrapLeafInputsForInteriorMutability leafIndexToLeafInput,
          initializeFilledTreeOutputMapWithPlaceholders updatedSkeleton,
          initializeLeafOutputMapWithPlaceholders leafIndexToLeafInput⟩
      match computeFilledTreeRec fuel updatedSkeleton root none s with
      | none => none
      | some (.error e) => some (.error e)
      | some (.ok (rootHash, s)) =>
        match removeArcMutexAndOptionFromOutputMap s.filledTreeOutputMap true with
        | none => none
        | some treeMap =>
          (removeArcMutexAndOptionFromOutputMap s.leafIndexToLeafOutput false).map
            fun leafOutputs => .ok (⟨treeMap, rootHash⟩, leafOutputs)

/-- `FilledTree::create_with_existing_leaves`: the leaves taken from the modifications. -/
def createWithExistingLeaves (fuel : Nat) (updatedSkeleton : UpdatedSkeletonTreeImpl)
    (leafModifications : LeafModifications L) :
    Option (Except FilledTreeError (FilledTreeImpl L)) :=
  if leafModifications.isEmpty then createUnmodified updatedSkeleton
  else
    match updatedSkeleton.isEmpty with
    | none => none
    | some true => some (.ok createEmpty)
    | some false =>
      let s : FillState L := ⟨[], initializeFilledTreeOutputMapWithPlaceholders updatedSkeleton, []⟩
      match computeFilledTreeRec fuel updatedSkeleton root (some leafModifications) s with
      | none => none
      | some (.error e) => some (.error e)
      | some (.ok (rootHash, s)) =>
        (removeArcMutexAndOptionFromOutputMap s.filledTreeOutputMap true).map
          fun treeMap => .ok ⟨treeMap, rootHash⟩

end FilledTreeImpl

end Sequencer.Patricia
