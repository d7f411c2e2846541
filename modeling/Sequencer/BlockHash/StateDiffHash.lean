/-
# The state-diff commitment (`starknet_api`: `block_hash/state_diff_hash.rs`, `crypto/utils.rs`)

`calculate_state_diff_hash` hashes a `ThinStateDiff` with Poseidon over a sequence of felts that
it collects in a `HashChain`: a tag, then five sections, each a count followed by that many
entries, with each map sorted by key first.  Poseidon enters as a parameter; everything the
commitment can tell apart is decided by the felt sequence, which is what is modelled and
reasoned about here.

What the sequence is meant to encode is the CONTENT of the diff (`ThinStateDiff.SameContent`): the
class of each updated contract, a deployment overridden by a class replacement of the same
address; the declared classes; the multiset of deprecated declared classes; the storage writes,
where a contract with an empty key map writes nothing; and the nonces.

The updated-contracts section is where the sequence and the content part ways.  It collects
`deployed_contracts` and then `replaced_classes` into one `IndexMap`, which merges an address
present in both (`get_collectUpdatedContracts`: the pairs chained are exactly the content), but
the count it chains first is `deployed.len() + replaced.len()`, which counts such an address
twice (`len_collectUpdatedContracts`).
-/
import Sequencer.P2pSync.StateDiff
import Mathlib.Data.Multiset.Defs

namespace Sequencer.BlockHash

open Sequencer.Storage

/-! ## 1. `HashChain` -/

/-- `HashChain`: the felts collected for one hash, in order. -/
structure HashChain where
  elements : List Felt
  deriving DecidableEq, Repr

namespace HashChain

/-- `HashChain::new`. -/
def new : HashChain := ⟨[]⟩

/-- `HashChain::chain`. -/
def chain (h : HashChain) (felt : Felt) : HashChain := ⟨h.elements ++ [felt]⟩

/-- `HashChain::chain_iter`. -/
def chainIter (h : HashChain) (felts : List Felt) : HashChain := felts.foldl chain h

/-- `HashChain::extend`. -/
def extend (h c : HashChain) : HashChain := ⟨h.elements ++ c.elements⟩

@[simp] theorem elements_new : new.elements = [] := rfl

@[simp] theorem elements_chain (h : HashChain) (felt : Felt) :
    (h.chain felt).elements = h.elements ++ [felt] := rfl

@[simp] theorem elements_extend (h c : HashChain) : (h.extend c).elements = h.elements ++ c.elements :=
  rfl

@[simp] theorem elements_chainIter (h : HashChain) (felts : List Felt) :
    (h.chainIter felts).elements = h.elements ++ felts := by
  induction felts generalizing h with
  | nil => simp [chainIter]
  | cons felt felts ih =>
    simp only [chainIter, List.foldl_cons] at ih ⊢
    rw [ih]
    simp

/-- Chaining the key and value of each entry of a list of pairs. -/
theorem elements_foldl_chain_pair (l : List (Felt × Felt)) (h : HashChain) :
    (l.foldl (fun h e => (h.chain e.1).chain e.2) h).elements =
      h.elements ++ l.flatMap fun e => [e.1, e.2] := by
  induction l generalizing h with
  | nil => simp
  | cons e l ih => simp [ih]

end HashChain

/-- `ascii_as_felt`: the felt whose big-endian bytes are the string's. -/
def asciiAsFelt (s : String) : Felt := s.toList.foldl (fun acc c => acc * 256 + c.toNat) 0

/-- `STARKNET_STATE_DIFF0`. -/
def starknetStateDiff0 : Felt := asciiAsFelt "STARKNET_STATE_DIFF0"

/-! ## 2. `calculate_state_diff_hash` -/

/-- `sorted_index_map`: a clone of the map, sorted by key. -/
def sortedIndexMap {κ ν : Type} [LinearOrder κ] (m : IndexMap κ ν) : IndexMap κ ν :=
  m.sortUnstableKeys

/-- The `collect` of `deployed_contracts.iter().chain(replaced_classes.iter())`. -/
def collectUpdatedContracts (deployedContracts replacedClasses : IndexMap ContractAddress ClassHash) :
    IndexMap ContractAddress ClassHash :=
  IndexMap.fromIter (deployedContracts.entries ++ replacedClasses.entries)

/-- `chain_updated_contracts`. -/
def chainUpdatedContracts (deployedContracts replacedClasses : IndexMap ContractAddress ClassHash)
    (hashChain : HashChain) : HashChain :=
  let updatedContracts := collectUpdatedContracts deployedContracts replacedClasses
  let hashChain := hashChain.chain (deployedContracts.len + replacedClasses.len)
  (sortedIndexMap updatedContracts).entries.foldl (fun h e => (h.chain e.1).chain e.2) hashChain

/-- `chain_declared_classes`. -/
def chainDeclaredClasses (declaredClasses : IndexMap ClassHash CompiledClassHash)
    (hashChain : HashChain) : HashChain :=
  let hashChain := hashChain.chain declaredClasses.len
  (sortedIndexMap declaredClasses).entries.foldl (fun h e => (h.chain e.1).chain e.2) hashChain

/-- `chain_deprecated_declared_classes`. -/
def chainDeprecatedDeclaredClasses (deprecatedDeclaredClasses : List ClassHash)
    (hashChain : HashChain) : HashChain :=
  -- `sort_unstable`: equal class hashes are the same value, so any sort gives one result
  let sortedDeprecatedDeclaredClasses := deprecatedDeclaredClasses.insertionSort (· ≤ ·)
  (hashChain.chain sortedDeprecatedDeclaredClasses.length).chainIter sortedDeprecatedDeclaredClasses

/-- The loop of `chain_storage_diffs`: the number of contracts with a non-empty key map, and
the chain of their writes. -/
def chainStorageDiffsLoop : List (ContractAddress × IndexMap StorageKey Felt) → Nat × HashChain →
    Nat × HashChain
  | [], acc => acc
  | (contractAddress, keyValueMap) :: rest, (nUpdatedContracts, storageDiffsChain) =>
    -- a contract with an empty storage map is filtered out
    if keyValueMap.isEmpty then chainStorageDiffsLoop rest (nUpdatedContracts, storageDiffsChain)
    else
      let storageDiffsChain := (storageDiffsChain.chain contractAddress).chain keyValueMap.len
      let storageDiffsChain := (sortedIndexMap keyValueMap).entries.foldl
        (fun h e => (h.chain e.1).chain e.2) storageDiffsChain
      chainStorageDiffsLoop rest (nUpdatedContracts + 1, storageDiffsChain)

/-- `chain_storage_diffs`. -/
def chainStorageDiffs (storageDiffs : IndexMap ContractAddress (IndexMap StorageKey Felt))
    (hashChain : HashChain) : HashChain :=
  let (nUpdatedContracts, storageDiffsChain) :=
    chainStorageDiffsLoop (sortedIndexMap storageDiffs).entries (0, HashChain.new)
  (hashChain.chain nUpdatedContracts).extend storageDiffsChain

/-- `chain_nonces`. -/
def chainNonces (nonces : IndexMap ContractAddress Nonce) (hashChain : HashChain) : HashChain :=
  let hashChain := hashChain.chain nonces.len
  (sortedIndexMap nonces).entries.foldl (fun h e => (h.chain e.1).chain e.2) hashChain

/-- The hash chain `calculate_state_diff_hash` builds: the preimage of the commitment. -/
def stateDiffHashChain (stateDiff : ThinStateDiff) : HashChain :=
  let hashChain := HashChain.new.chain starknetStateDiff0
  let hashChain := chainUpdatedContracts stateDiff.deployedContracts stateDiff.replacedClasses hashChain
  let hashChain := chainDeclaredClasses stateDiff.declaredClasses hashChain
  let hashChain := chainDeprecatedDeclaredClasses stateDiff.deprecatedDeclaredClasses hashChain
  -- two placeholders
  let hashChain := (hashChain.chain 1).chain 0
  let hashChain := chainStorageDiffs stateDiff.storageDiffs hashChain
  chainNonces stateDiff.nonces hashChain

/-- `calculate_state_diff_hash`, over the hash of a felt array it is given. -/
def calculateStateDiffHash (poseidonHashArray : List Felt → Felt) (stateDiff : ThinStateDiff) :
    Felt :=
  poseidonHashArray (stateDiffHashChain stateDiff).elements

end Sequencer.BlockHash

/-! ## 3. What the commitment is meant to bind -/

namespace Sequencer.Storage.ThinStateDiff

/-- The class of an updated contract: a class replacement overrides a deployment. -/
def updatedContract (d : ThinStateDiff) (address : ContractAddress) : Option ClassHash :=
  (d.replacedClasses.get address).or (d.deployedContracts.get address)

/-- The value a diff writes to a storage key; a contract with an empty key map writes none. -/
def storageWrite (d : ThinStateDiff) (address : ContractAddress) (key : StorageKey) : Option Felt :=
  (d.storageDiffs.get address).bind fun keyValueMap => keyValueMap.get key

/-- Two diffs with the same content: the same updated contracts, declared classes, multiset of
deprecated declared classes, storage writes and nonces. -/
structure SameContent (d₁ d₂ : ThinStateDiff) : Prop where
  updatedContract : ∀ address, d₁.updatedContract address = d₂.updatedContract address
  declaredClasses : ∀ classHash, d₁.declaredClasses.get classHash = d₂.declaredClasses.get classHash
  deprecatedDeclaredClasses :
    (d₁.deprecatedDeclaredClasses : Multiset ClassHash) = d₂.deprecatedDeclaredClasses
  storageWrite : ∀ address key, d₁.storageWrite address key = d₂.storageWrite address key
  nonces : ∀ address, d₁.nonces.get address = d₂.nonces.get address

end Sequencer.Storage.ThinStateDiff

namespace Sequencer.BlockHash

open Sequencer.Storage

/-! ## 4. The updated-contracts section -/

/-- The pairs the section chains are the updated contracts: the merge keeps one entry per
address, with the replacement's class where there is one. -/
theorem get_collectUpdatedContracts (d : ThinStateDiff) (address : ContractAddress) :
    (collectUpdatedContracts d.deployedContracts d.replacedClasses).get address =
      d.updatedContract address := by
  rw [collectUpdatedContracts, IndexMap.fromIter, IndexMap.get_foldl_insert, List.reverse_append,
    List.lookup_append, IndexMap.lookup_reverse_entries, IndexMap.lookup_reverse_entries]
  simp [ThinStateDiff.updatedContract, IndexMap.empty, IndexMap.get]

/-- **The count chained first exceeds the pairs chained after it by the number of addresses that
are both deployed and replaced.** -/
theorem len_collectUpdatedContracts (deployedContracts replacedClasses : IndexMap ContractAddress ClassHash) :
    (collectUpdatedContracts deployedContracts replacedClasses).len +
        (replacedClasses.entries.filter fun e => deployedContracts.containsKey e.1).length =
      deployedContracts.len + replacedClasses.len := by
  -- collecting the deployments alone gives back the deployments
  have hlen : (IndexMap.fromIter deployedContracts.entries).len = deployedContracts.len := by
    rw [IndexMap.fromIter, IndexMap.len_foldl_insert deployedContracts.nodup]
    simp [IndexMap.empty, IndexMap.len, IndexMap.containsKey, IndexMap.get]
  have hcontains : ∀ address, (IndexMap.fromIter deployedContracts.entries).containsKey address =
      deployedContracts.containsKey address := by
    intro address
    rw [IndexMap.containsKey, IndexMap.containsKey, IndexMap.fromIter, IndexMap.get_foldl_insert,
      IndexMap.lookup_reverse_entries]
    simp [IndexMap.empty, IndexMap.get]
  rw [collectUpdatedContracts, IndexMap.fromIter, List.foldl_append, ← IndexMap.fromIter,
    IndexMap.len_foldl_insert replacedClasses.nodup, hlen]
  simp only [hcontains]
  have hsplit := List.length_eq_length_filter_add (l := replacedClasses.entries)
    fun e => deployedContracts.containsKey e.1
  simp only [IndexMap.len] at hsplit ⊢
  omega

end Sequencer.BlockHash
