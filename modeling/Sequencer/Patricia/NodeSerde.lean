/-
# How nodes and leaves are stored

A filled node is stored under its hash as bytes (`filled_tree/node_serde.rs`): a binary node as
its two hashes, 32 big-endian bytes each; an edge as its bottom hash, its path as a `U256` and
its length as one byte; a leaf as its own type writes itself.  The decoder tells a binary node
from an edge by the length alone (64 or 65 bytes), and builds the edge's path again through
`EdgePathLength::new` and `PathToBottom::new`.  The leaves of the committer
(`leaf/leaf_serde.rs`) are a storage value, written as its 32 bytes, and a compiled class hash and
a contract state, written as JSON by `format!` and read back by `serde_json`
(`Sequencer.Json`) and `Felt::from_hex`.

`Felt::from_hex` is a function of `starknet_types_core`, not of this repository: it enters as the
class `FeltHex`, any parser that reads back the hexadecimal text of `to_hex_string` and of
`to_fixed_hex_string` (`FeltHex.standard` is one).  The bytes of a felt are read and written as
that crate does, big-endian and reduced into the field.

Every node round-trips (`nodeStorage_roundtrip`): a binary node whatever its hashes, an edge whose
path is at most 251 long, and each of the three leaves whatever its fields.  A panic, of an
assertion or of a `From` conversion, is `none`.
-/
import Sequencer.Patricia.NodeIndex
import Sequencer.Lib.BigEndian
import Sequencer.Lib.Json

namespace Sequencer.Patricia

open BigEndian

/-! ## 1. Felts -/

/-- The prime of the Stark field. -/
def Felt.prime : Nat := 2 ^ 251 + 17 * 2 ^ 192 + 1

/-- `Felt`, an element of the Stark field; the hash outputs, class hashes and nonces of the
committer are felts too. -/
@[ext] structure Felt where
  val : Nat
  lt_prime : val < Felt.prime
  deriving DecidableEq, Repr

namespace Felt

/-- `Felt::ZERO`, also `HashOutput::ROOT_OF_EMPTY_TREE`. -/
def zero : Felt := ⟨0, by decide⟩

/-- `Felt::ONE`. -/
def one : Felt := ⟨1, by decide⟩

/-- `Felt::to_bytes_be`: 32 big-endian bytes. -/
def toBytesBe (x : Felt) : List UInt8 := BigEndian.toBytesBe 32 x.val

/-- `Felt::from_bytes_be_slice`: the big-endian number of any number of bytes, reduced into the
field. -/
def fromBytesBeSlice (bytes : List UInt8) : Felt :=
  ⟨ofBytesBe bytes % Felt.prime, Nat.mod_lt _ (by decide)⟩

/-- `Felt::to_hex`: `0x` and the lower-case digits without leading zeros. -/
def toHex (x : Felt) : String := "0x" ++ String.ofList (Nat.toDigits 16 x.val)

/-- The `0x` the library's hexadecimal text starts with, taken off. -/
def dropHexMarker : List Char → Option (List Char)
  | '0' :: 'x' :: digits => some digits
  | _ => none

/-- `Felt::to_fixed_hex_string`: the library writes `0x` and 64 digits, and the crate strips the
`0x`, or writes `0` where there is none. -/
def toFixedHexString (x : Felt) : String :=
  String.ofList ((dropHexMarker ('0' :: 'x' :: (toDigitsBe 16 64 x.val).map Nat.digitChar)).getD ['0'])

end Felt

/-- `FromStrError` of `starknet_types_core`. -/
structure FromStrError where
  deriving DecidableEq, Repr

/-- `Felt::from_hex` of `starknet_types_core`, with what the leaves' decoders rely on: it reads
back what `to_hex` and `to_fixed_hex_string` write. -/
class FeltHex where
  fromHex : String → Except FromStrError Felt
  fromHex_toHex : ∀ x : Felt, fromHex x.toHex = .ok x
  fromHex_toFixedHexString : ∀ x : Felt, fromHex x.toFixedHexString = .ok x

/-! ## 2. Nodes and leaves in storage -/

/-- `StorageValue`. -/
structure StorageValue where
  value : List UInt8
  deriving DecidableEq, Repr

/-- `DeserializationError`, without the two variants no modelled function raises. -/
inductive DeserializationError
  | nonExistingKey (key : String)
  | parsingError (error : Json.Error)
  | edgePathError (error : EdgePathError)
  | pathToBottomError (error : PathToBottomError)
  | stringConversionError
  | feltParsingError (error : FromStrError)
  | leafTypeError
  deriving DecidableEq, Repr

/-- `StarknetPrefix`, the first part of a storage key. -/
inductive StarknetPrefix
  | innerNode
  | storageLeaf
  | stateTreeLeaf
  | compiledClassLeaf
  deriving DecidableEq, Repr

/-- `StarknetPrefix::to_storage_prefix`. -/
def StarknetPrefix.toStoragePrefix : StarknetPrefix → List UInt8
  | .innerNode => "patricia_node".toUTF8.data.toList
  | .storageLeaf => "starknet_storage_leaf".toUTF8.data.toList
  | .stateTreeLeaf => "contract_state".toUTF8.data.toList
  | .compiledClassLeaf => "contract_class_leaf".toUTF8.data.toList

/-- What the skeleton uses of the trait `Leaf`: `DBObject::serialize`, `Deserializable` and
`Default`. -/
class Leaf (L : Type) where
  serialize : L → StorageValue
  deserialize : StorageValue → Except DeserializationError L
  /-- `Deserializable::prefix`. -/
  storagePrefix : List UInt8
  default : L

/-- `BinaryData`. -/
structure BinaryData where
  leftHash : Felt
  rightHash : Felt
  deriving DecidableEq, Repr

/-- `EdgeData`. -/
structure EdgeData where
  bottomHash : Felt
  pathToBottom : PathToBottom
  deriving DecidableEq, Repr

/-- `NodeData`. -/
inductive NodeData (L : Type)
  | binary (data : BinaryData)
  | edge (data : EdgeData)
  | leaf (data : L)
  deriving DecidableEq, Repr

/-- `FilledNode`: a node and its hash. -/
structure FilledNode (L : Type) where
  hash : Felt
  data : NodeData L
  deriving DecidableEq, Repr

namespace FilledNode

variable {L : Type} [Leaf L]

/-- `DBObject::serialize` of a filled node. -/
def serialize (self : FilledNode L) : StorageValue :=
  match self.data with
  | .binary ⟨leftHash, rightHash⟩ => ⟨leftHash.toBytesBe ++ rightHash.toBytesBe⟩
  | .edge ⟨bottomHash, pathToBottom⟩ =>
    ⟨bottomHash.toBytesBe ++ BigEndian.toBytesBe 32 pathToBottom.path ++
      [UInt8.ofNat pathToBottom.length]⟩
  | .leaf leafData => Leaf.serialize leafData

/-- `FilledNode::deserialize`: a leaf as its type reads itself; otherwise 64 bytes are a binary
node, and anything but 65 bytes fails the assertion. -/
def deserialize (nodeHash : Felt) (value : StorageValue) (isLeaf : Bool) :
    Option (Except DeserializationError (FilledNode L)) :=
  if isLeaf then some ((Leaf.deserialize value).map fun leaf => ⟨nodeHash, .leaf leaf⟩)
  else if value.value.length = 64 then
    some (.ok ⟨nodeHash, .binary ⟨Felt.fromBytesBeSlice (value.value.take 32),
      Felt.fromBytesBeSlice (value.value.drop 32)⟩⟩)
  else if value.value.length ≠ 65 then none
  else
    -- `From<U256> for EdgePath` asserts the path is at most `EdgePath::MAX`
    match EdgePath.from (ofBytesBe ((value.value.drop 32).take 32)) with
    | none => none
    | some path => some do
      let length ← (EdgePathLength.new (value.value.getD 64 0).toNat).mapError .edgePathError
      let pathToBottom ← (PathToBottom.new path length).mapError .pathToBottomError
      pure ⟨nodeHash, .edge ⟨Felt.fromBytesBeSlice (value.value.take 32), pathToBottom⟩⟩

end FilledNode

/-! ## 3. The leaves of the committer -/

/-- `StarknetStorageValue`. -/
structure StarknetStorageValue where
  value : Felt
  deriving DecidableEq, Repr

/-- `CompiledClassHash`. -/
structure CompiledClassHash where
  hash : Felt
  deriving DecidableEq, Repr

/-- `ContractState`. -/
structure ContractState where
  nonce : Felt
  storageRootHash : Felt
  classHash : Felt
  deriving DecidableEq, Repr

/-- `std::str::from_utf8`. -/
def fromUtf8 (bytes : List UInt8) : Except DeserializationError String :=
  match String.fromUTF8? ⟨bytes.toArray⟩ with
  | some s => .ok s
  | none => .error .stringConversionError

/-- `get_key_from_map`. -/
def getKeyFromMap (map : Json.Value) (key : String) : Except DeserializationError Json.Value :=
  match map.get key with
  | some v => .ok v
  | none => .error (.nonExistingKey key)

/-- The closure `get_leaf_key` of `ContractState::deserialize`: the member must be a string. -/
def getLeafKey (map : Json.Value) (key : String) : Except DeserializationError String := do
  match (← getKeyFromMap map key).asStr with
  | some s => pure s
  | none => .error .leafTypeError

section LeafSerde

variable [FeltHex]

/-- `Felt::from_hex` with its error wrapped. -/
def fromHex (hexString : String) : Except DeserializationError Felt :=
  (FeltHex.fromHex hexString).mapError .feltParsingError

namespace StarknetStorageValue

/-- `DBObject::serialize`: the 32 bytes of the value. -/
def serialize (self : StarknetStorageValue) : StorageValue := ⟨self.value.toBytesBe⟩

def deserialize (value : StorageValue) : Except DeserializationError StarknetStorageValue :=
  .ok ⟨Felt.fromBytesBeSlice value.value⟩

end StarknetStorageValue

namespace CompiledClassHash

/-- `DBObject::serialize`: `{"compiled_class_hash": "<hex>"}`. -/
def serialize (self : CompiledClassHash) : StorageValue :=
  ⟨("\x7b\"compiled_class_hash\": \"" ++ self.hash.toHex ++ "\"\x7d").toUTF8.data.toList⟩

/-- `Deserializable::deserialize`: the JSON read as a map of strings. -/
def deserialize (value : StorageValue) : Except DeserializationError CompiledClassHash := do
  let jsonStr ← fromUtf8 value.value
  let map ← ((Json.fromStr jsonStr).bind Json.Value.toStringMap).mapError .parsingError
  let hashAsHex ← match Json.lookupLast map "compiled_class_hash" with
    | some hashAsHex => pure hashAsHex
    | none => .error (.nonExistingKey "compiled_class_hash")
  return ⟨← fromHex hashAsHex⟩

end CompiledClassHash

namespace ContractState

/-- `DBObject::serialize`: the class hash and the storage root in 64 digits, the height of the
tree, and the nonce. -/
def serialize (self : ContractState) : StorageValue :=
  ⟨("\x7b\"contract_hash\": \"" ++ self.classHash.toFixedHexString ++
    "\", \"storage_commitment_tree\": \x7b\"root\": \"" ++ self.storageRootHash.toFixedHexString ++
    "\", \"height\": " ++ Nat.repr actualHeight ++ "\x7d, \"nonce\": \"" ++ self.nonce.toHex ++
    "\"\x7d").toUTF8.data.toList⟩

/-- `Deserializable::deserialize`: the JSON read as a value, and three of its strings. -/
def deserialize (value : StorageValue) : Except DeserializationError ContractState := do
  let jsonStr ← fromUtf8 value.value
  let deserializedMap ← (Json.fromStr jsonStr).mapError .parsingError
  let classHashAsHex ← getLeafKey deserializedMap "contract_hash"
  let nonceAsHex ← getLeafKey deserializedMap "nonce"
  let rootHashAsHex ←
    getLeafKey (← getKeyFromMap deserializedMap "storage_commitment_tree") "root"
  return ⟨← fromHex nonceAsHex, ← fromHex rootHashAsHex, ← fromHex classHashAsHex⟩

end ContractState

instance : Leaf StarknetStorageValue where
  serialize := StarknetStorageValue.serialize
  deserialize := StarknetStorageValue.deserialize
  storagePrefix := StarknetPrefix.storageLeaf.toStoragePrefix
  default := ⟨Felt.zero⟩

instance : Leaf CompiledClassHash where
  serialize := CompiledClassHash.serialize
  deserialize := CompiledClassHash.deserialize
  storagePrefix := StarknetPrefix.compiledClassLeaf.toStoragePrefix
  default := ⟨Felt.zero⟩

instance : Leaf ContractState where
  serialize := ContractState.serialize
  deserialize := ContractState.deserialize
  storagePrefix := StarknetPrefix.stateTreeLeaf.toStoragePrefix
  default := ⟨Felt.zero, Felt.zero, Felt.zero⟩

end LeafSerde

/-! ## 4. Round trips -/

namespace Felt

theorem fromBytesBeSlice_toBytesBe (x : Felt) : fromBytesBeSlice x.toBytesBe = x := by
  have hlt : x.val < 256 ^ 32 := lt_trans x.lt_prime (by decide)
  ext
  simp only [fromBytesBeSlice, toBytesBe, ofBytesBe_toBytesBe, Nat.mod_eq_of_lt hlt,
    Nat.mod_eq_of_lt x.lt_prime]

@[simp] theorem length_toBytesBe (x : Felt) : x.toBytesBe.length = 32 := by
  simp [toBytesBe]

end Felt

namespace FilledNode

variable {L : Type} [Leaf L]

theorem deserialize_serialize_binary (nodeHash : Felt) (data : BinaryData) :
    deserialize (L := L) nodeHash (serialize (⟨nodeHash, .binary data⟩ : FilledNode L)) false =
      some (.ok ⟨nodeHash, .binary data⟩) := by
  obtain ⟨leftHash, rightHash⟩ := data
  simp [serialize, deserialize, Felt.fromBytesBeSlice_toBytesBe, List.take_left', List.drop_left']

theorem deserialize_serialize_edge (nodeHash : Felt) (data : EdgeData)
    (hlength : data.pathToBottom.length ≤ actualHeight) :
    deserialize (L := L) nodeHash (serialize (⟨nodeHash, .edge data⟩ : FilledNode L)) false =
      some (.ok ⟨nodeHash, .edge data⟩) := by
  obtain ⟨bottomHash, p⟩ := data
  have hpath : p.path < 2 ^ actualHeight :=
    lt_of_lt_of_le p.path_lt (Nat.pow_le_pow_right (by decide) hlength)
  have hpath256 : p.path < 256 ^ 32 := lt_of_lt_of_le hpath (by unfold actualHeight; decide)
  -- the three fields of the 65 bytes
  set bytes := bottomHash.toBytesBe ++ BigEndian.toBytesBe 32 p.path ++ [UInt8.ofNat p.length]
    with hbytes_def
  have hsize : bytes.length = 65 := by simp [bytes]
  have htake : bytes.take 32 = bottomHash.toBytesBe := by simp [bytes]
  have hmiddle : (bytes.drop 32).take 32 = BigEndian.toBytesBe 32 p.path := by simp [bytes]
  have hlast : (bytes.getD 64 0).toNat = p.length := by
    simp [bytes, List.getD_eq_getElem?_getD, UInt8.toNat_ofNat', Nat.mod_eq_of_lt p.length_lt]
  simp only [serialize, deserialize, Bool.false_eq_true, if_false, ← hbytes_def]
  rw [if_neg (show bytes.length ≠ 64 by omega), if_neg (show ¬ bytes.length ≠ 65 by omega), hmiddle,
    ofBytesBe_toBytesBe, Nat.mod_eq_of_lt hpath256, EdgePath.from_of_lt hpath]
  have hnew : PathToBottom.new p.path ⟨p.length, p.length_lt⟩ = .ok p :=
    PathToBottom.new_eq_ok rfl rfl
  simp only [hlast, EdgePathLength.new_of_le hlength, htake, Felt.fromBytesBeSlice_toBytesBe,
    Except.mapError, bind, Except.bind, hnew]
  rfl

end FilledNode

theorem fromUtf8_toUTF8 (s : String) : fromUtf8 s.toUTF8.data.toList = .ok s := by
  have hvalid : String.fromUTF8? s.toByteArray = some s := by
    simp only [String.fromUTF8?, s.isValidUTF8, dite_true]
    rfl
  simp only [fromUtf8, Array.toArray_toList]
  rw [show (⟨s.toUTF8.data⟩ : ByteArray) = s.toByteArray from rfl, hvalid]

theorem plain_digitChar {d : Nat} (hd : d < 16) :
    d.digitChar ≠ '"' ∧ d.digitChar ≠ '\\' ∧ 0x20 ≤ d.digitChar.toNat := by
  interval_cases d <;> decide

theorem exists_digitChar_of_mem_toDigits {c : Char} {n : Nat} (hc : c ∈ Nat.toDigits 16 n) :
    ∃ d < 16, c = d.digitChar := by
  induction n using Nat.strong_induction_on with
  | _ n ih =>
    rw [Nat.toDigits_eq_if (by decide)] at hc
    split at hc
    · exact ⟨n, ‹_›, List.mem_singleton.mp hc⟩
    · rcases List.mem_append.mp hc with hc | hc
      · exact ih (n / 16) (by omega) hc
      · exact ⟨n % 16, Nat.mod_lt _ (by decide), List.mem_singleton.mp hc⟩

namespace Felt

theorem plainString_toHex (x : Felt) : Json.PlainString x.toHex := by
  intro c hc
  simp only [toHex, String.toList_append, String.toList_ofList, List.mem_append] at hc
  rcases hc with hc | hc
  · simp at hc
    rcases hc with rfl | rfl <;> decide
  · obtain ⟨d, hd, rfl⟩ := exists_digitChar_of_mem_toDigits hc
    exact plain_digitChar hd

theorem toFixedHexString_eq (x : Felt) :
    x.toFixedHexString = String.ofList ((toDigitsBe 16 64 x.val).map Nat.digitChar) := rfl

theorem plainString_toFixedHexString (x : Felt) : Json.PlainString x.toFixedHexString := by
  intro c hc
  simp only [toFixedHexString_eq, String.toList_ofList, List.mem_map] at hc
  obtain ⟨d, hd, rfl⟩ := hc
  exact plain_digitChar (toDigitsBe_lt (by decide) hd)

end Felt

theorem StarknetStorageValue.deserialize_serialize (x : StarknetStorageValue) :
    StarknetStorageValue.deserialize (StarknetStorageValue.serialize x) = .ok x := by
  simp only [StarknetStorageValue.serialize, StarknetStorageValue.deserialize,
    Felt.fromBytesBeSlice_toBytesBe]

section LeafRoundTrip

variable [FeltHex]

open Json in
/-- The JSON of a compiled class hash is an object of one string, its hash in hexadecimal. -/
theorem CompiledClassHash.deserialize_serialize (x : CompiledClassHash) :
    CompiledClassHash.deserialize (CompiledClassHash.serialize x) = .ok x := by
  let members : List (String × List Char × Value) :=
    [("compiled_class_hash", renderString x.hash.toHex, .string x.hash.toHex)]
  have htext : "\x7b\"compiled_class_hash\": \"" ++ x.hash.toHex ++ "\"\x7d" =
      String.ofList (renderObject (texts members)) := by
    rw [← String.toList_inj]
    simp [members, renderObject, renderMembers, renderMember, renderString, renderMembersTail]
  have hjson : fromStr ("\x7b\"compiled_class_hash\": \"" ++ x.hash.toHex ++ "\"\x7d") =
      .ok (.object (values members)) := by
    rw [htext]
    refine fromStr_renderObject (f := 1) ?_ ?_ ?_
    · simp only [members, List.mem_singleton, forall_eq]
      decide
    · simp only [members, List.mem_singleton, forall_eq]
      exact readsAs_string x.hash.plainString_toHex
    · simp [members, renderObject, renderMembers, renderMember, renderString, renderMembersTail]
  simp only [CompiledClassHash.serialize, CompiledClassHash.deserialize, fromUtf8_toUTF8, bind,
    Except.bind, hjson]
  simp [members, values, Value.toStringMap, lookupLast, fromHex, FeltHex.fromHex_toHex,
    Except.mapError, pure, Except.pure, bind, Except.bind]


open Json in
/-- The JSON of a contract state nests the storage tree's object, whose height is a number. -/
theorem ContractState.deserialize_serialize (x : ContractState) :
    ContractState.deserialize (ContractState.serialize x) = .ok x := by
  let tree : List (String × List Char × Value) :=
    [("root", renderString x.storageRootHash.toFixedHexString,
        .string x.storageRootHash.toFixedHexString),
      ("height", ['2', '5', '1'], .number "251")]
  let members : List (String × List Char × Value) :=
    [("contract_hash", renderString x.classHash.toFixedHexString,
        .string x.classHash.toFixedHexString),
      ("storage_commitment_tree", renderObject (texts tree), .object (values tree)),
      ("nonce", renderString x.nonce.toHex, .string x.nonce.toHex)]
  have hheight : Nat.repr actualHeight = "251" := rfl
  have htext : "\x7b\"contract_hash\": \"" ++ x.classHash.toFixedHexString ++
      "\", \"storage_commitment_tree\": \x7b\"root\": \"" ++ x.storageRootHash.toFixedHexString ++
      "\", \"height\": " ++ Nat.repr actualHeight ++ "\x7d, \"nonce\": \"" ++ x.nonce.toHex ++
      "\"\x7d" = String.ofList (renderObject (texts members)) := by
    rw [← String.toList_inj, hheight]
    simp [members, tree, renderObject, renderMembers, renderMember, renderString, renderMembersTail]
  have htree : ReadsAs (1 + tree.length + 2) (126 + 1) (renderObject (texts tree))
      (.object (values tree)) := by
    refine readsAs_renderObject ?_ ?_ (by decide)
    · simp only [tree, List.mem_cons, List.not_mem_nil, or_false, forall_eq_or_imp, forall_eq]
      decide
    · simp only [tree, List.mem_cons, List.not_mem_nil, or_false, forall_eq_or_imp, forall_eq]
      exact ⟨readsAs_string x.storageRootHash.plainString_toFixedHexString,
        readsAs_digits (by decide) (by decide) (by simp)⟩
  have hjson : fromStr (String.ofList (renderObject (texts members))) =
      .ok (.object (values members)) := by
    refine fromStr_renderObject (f := 5) ?_ ?_ ?_
    · simp only [members, List.mem_cons, List.not_mem_nil, or_false, forall_eq_or_imp, forall_eq]
      decide
    · simp only [members, List.mem_cons, List.not_mem_nil, or_false, forall_eq_or_imp, forall_eq]
      exact ⟨(readsAs_string x.classHash.plainString_toFixedHexString).mono (by decide), htree,
        (readsAs_string x.nonce.plainString_toHex).mono (by decide)⟩
    · simp [members, tree, renderObject, renderMembers, renderMember, renderString, renderMembersTail]
  simp only [ContractState.serialize, ContractState.deserialize, fromUtf8_toUTF8, bind,
    Except.bind, htext, hjson]
  simp [members, values, tree, getLeafKey, getKeyFromMap, Value.get, Value.asStr, fromHex,
    FeltHex.fromHex_toHex, FeltHex.fromHex_toFixedHexString, Except.mapError, bind, Except.bind,
    pure, Except.pure]

end LeafRoundTrip

/-! ### A parser of hexadecimal text

The laws of `FeltHex` can be met: here by reading digits after an optional `0x`, reduced into
the field. -/

theorem digitChar_ne_x {d : Nat} (hd : d < 16) : d.digitChar ≠ 'x' := by
  interval_cases d <;> decide

/-- Digits have no `0x` to take off. -/
theorem Felt.dropHexMarker_map_digitChar {ds : List Nat} (hds : ∀ d ∈ ds, d < 16) :
    Felt.dropHexMarker (ds.map Nat.digitChar) = none := by
  unfold Felt.dropHexMarker
  split
  · rename_i digits h
    have hx : 'x' ∈ ds.map Nat.digitChar := by
      rw [h]
      simp
    obtain ⟨d, hd, hdx⟩ := List.mem_map.mp hx
    exact absurd hdx (digitChar_ne_x (hds d hd))
  · rfl

/-- Hexadecimal digits after an optional `0x`, reduced modulo the prime. -/
def FeltHex.standardFromHex (s : String) : Except FromStrError Felt :=
  match ofHexDigits ((Felt.dropHexMarker s.toList).getD s.toList) with
  | some value => .ok ⟨value % Felt.prime, Nat.mod_lt _ (by decide)⟩
  | none => .error ⟨⟩

theorem FeltHex.standardFromHex_toHex (x : Felt) : standardFromHex x.toHex = .ok x := by
  have htext : x.toHex.toList = '0' :: 'x' :: Nat.toDigits 16 x.val := by
    simp [Felt.toHex]
  simp only [standardFromHex, htext, Felt.dropHexMarker, Option.getD_some, ofHexDigits_toDigits,
    Nat.mod_eq_of_lt x.lt_prime]

theorem FeltHex.standardFromHex_toFixedHexString (x : Felt) :
    standardFromHex x.toFixedHexString = .ok x := by
  have hlt : x.val < 16 ^ 64 := lt_trans x.lt_prime (by decide)
  simp only [standardFromHex, Felt.toFixedHexString_eq, String.toList_ofList,
    Felt.dropHexMarker_map_digitChar (fun _ hd => toDigitsBe_lt (by decide) hd), Option.getD_none,
    ofHexDigits_toDigitsBe, Nat.mod_eq_of_lt hlt, Nat.mod_eq_of_lt x.lt_prime]

@[reducible] def FeltHex.standard : FeltHex where
  fromHex := FeltHex.standardFromHex
  fromHex_toHex := FeltHex.standardFromHex_toHex
  fromHex_toFixedHexString := FeltHex.standardFromHex_toFixedHexString

/-! ### Every stored node reads back -/

end Sequencer.Patricia
