/-
# Protobuf converters (`papyrus_protobuf`: `converters/`)

The p2p and consensus messages go over the wire as protobuf.  A value `v : T` is converted to its
`protobuf::` message, which `prost` encodes (`auto_impl_into_and_try_from_vec_u8`); bytes are
decoded by `prost` into a message, which is converted back or fails with a
`ProtobufConversionError`.  Each direction is written by hand, field by field.  This module
models them for felts, hashes and addresses (`common.rs`), events (`event.rs`), block headers
(`header.rs`) and resource bounds (`transaction.rs`).  `prost` itself is a `Codec`: any encoder
and decoder such that decoding an encoding gives the message back, which is all the conversions
rely on.

A conversion can panic as well as fail: `Conv` is `ExceptT ProtobufConversionError Option`, and
`none` is a panic.  Three findings:

* the decoder of `Felt252` copies its bytes into a `[u8; 32]` without checking their number,
  unlike those of `Hash` and `Address` (`Felt252.toFelt_eq_abort_iff`), so bytes from a peer can
  make decoding `DataOrFin<(Event, TransactionHash)>` panic (`eventsResponse_tryFrom_panics`);
* the header's encoder writes `state_diff_length` and `state_diff_commitment` into one optional
  message, absent when the length is `None`, and the decoder requires that message, so such a
  header does not come back (`signedBlockHeader_roundtrip_fails`); every other valid header does
  (`blockHeaders_roundtrip_of_isSome`);
* the decoder of `ValidResourceBounds` picks the variant from the values, so `AllResources` with
  zero L2 and L1-data bounds comes back as `L1Gas`
  (`ResourceBounds.toValidResourceBounds_ofValidResourceBounds`).

Left out: the `Debug` text of the value in `OutOfRangeValue`; the `expect`s converting between
`u64` and `usize`, which cannot fail on the 64-bit targets the node runs on.
-/
import Mathlib.Tactic.Ring
import Sequencer.Fee.Gas
import Sequencer.Storage.State

namespace Sequencer.Protobuf

open Sequencer.Storage (Felt)

/-! ## 1. Felts as bytes -/

/-- The prime of the Stark field. -/
def feltPrime : Nat := 2 ^ 251 + 17 * 2 ^ 192 + 1

/-- `PATRICIA_KEY_UPPER_BOUND`, `0x800..0`. -/
def patriciaKeyUpperBound : Nat := 2 ^ 251

/-- `Felt::from_bytes_be`: the big-endian number, reduced into the field. -/
def feltFromBytesBe (bytes : List UInt8) : Felt :=
  bytes.foldl (fun acc b => acc * 256 + b.toNat) 0 % feltPrime

/-- `Felt::to_bytes_be`: 32 big-endian bytes. -/
def feltToBytesBe (x : Felt) : List UInt8 :=
  (List.range 32).reverse.map fun i => UInt8.ofNat (x / 256 ^ i)

/-! ## 2. The messages -/

/-- `prost::DecodeError`. -/
structure DecodeError where
  description : String

/-- `ProtobufConversionError`, without the `Debug` text of an out-of-range value. -/
inductive ProtobufConversionError where
  | outOfRangeValue (typeDescription : String)
  | missingField (fieldDescription : String)
  | bytesDataLengthMismatch (typeDescription : String) (numExpected : Nat) (value : List UInt8)
  | decodeError (error : DecodeError)

/-- A conversion: `none` is a panic, `some (.error e)` an `Err`. -/
abbrev Conv := ExceptT ProtobufConversionError Option

/-- A panic. -/
def abort {α : Type} : Conv α := ExceptT.lift none

/-- `ok_or(ProtobufConversionError::MissingField { field_description })`. -/
def okOrMissing {α : Type} (value : Option α) (fieldDescription : String) : Conv α :=
  match value with
  | some a => pure a
  | none => throw (.missingField fieldDescription)

-- the `protobuf::` messages, as `prost` generates them
namespace Proto

structure Felt252 where
  elements : List UInt8

structure Hash where
  elements : List UInt8

structure Address where
  elements : List UInt8

structure Uint128 where
  low : Nat
  high : Nat

structure Patricia where
  nLeaves : Nat
  root : Option Hash

structure StateDiffCommitment where
  stateDiffLength : Nat
  root : Option Hash

structure ConsensusSignature where
  r : Option Felt252
  s : Option Felt252

structure Fin where

structure SignedBlockHeader where
  blockHash : Option Hash
  parentHash : Option Hash
  number : Nat
  time : Nat
  sequencerAddress : Option Address
  stateRoot : Option Hash
  stateDiffCommitment : Option StateDiffCommitment
  transactions : Option Patricia
  events : Option Patricia
  receipts : Option Hash
  protocolVersion : List Char
  gasPriceFri : Option Uint128
  gasPriceWei : Option Uint128
  dataGasPriceFri : Option Uint128
  dataGasPriceWei : Option Uint128
  l1DataAvailabilityMode : Int
  signatures : List ConsensusSignature
  l2GasPriceFri : Option Uint128
  l2GasPriceWei : Option Uint128

/-- `block_headers_response::HeaderMessage`. -/
inductive HeaderMessage where
  | header (header : SignedBlockHeader)
  | fin (fin : Fin)

structure BlockHeadersResponse where
  headerMessage : Option HeaderMessage

structure Event where
  transactionHash : Option Hash
  fromAddress : Option Felt252
  keys : List Felt252
  data : List Felt252

/-- `events_response::EventMessage`. -/
inductive EventMessage where
  | event (event : Event)
  | fin (fin : Fin)

structure EventsResponse where
  eventMessage : Option EventMessage

structure ResourceLimits where
  maxAmount : Nat
  maxPricePerUnit : Option Felt252

structure ResourceBounds where
  l1Gas : Option ResourceLimits
  l2Gas : Option ResourceLimits
  l1DataGas : Option ResourceLimits

end Proto

/-- `prost::Message`'s `encode_to_vec` and `decode`, and the law they keep. -/
structure Codec (M : Type) where
  encode : M → List UInt8
  decode : List UInt8 → Except DecodeError M
  decode_encode : ∀ m, decode (encode m) = .ok m

/-! ## 3. The Rust side -/

/-- `L1DataAvailabilityMode`. -/
inductive L1DataAvailabilityMode where
  | calldata
  | blob
  deriving DecidableEq, Repr

/-- `StarknetVersion`. -/
inductive StarknetVersion where
  | v0_9_1 | v0_10_0 | v0_10_1 | v0_10_2 | v0_10_3 | v0_11_0 | v0_11_0_2 | v0_11_1 | v0_11_2
  | v0_12_0 | v0_12_1 | v0_12_2 | v0_12_3 | v0_13_0 | v0_13_1 | v0_13_1_1 | v0_13_2 | v0_13_2_1
  | v0_13_3
  deriving DecidableEq, Repr

namespace StarknetVersion

/-- `From<&StarknetVersion> for Vec<u8>`. -/
def toBytes : StarknetVersion → List Nat
  | v0_9_1 => [0, 9, 1] | v0_10_0 => [0, 10, 0] | v0_10_1 => [0, 10, 1]
  | v0_10_2 => [0, 10, 2] | v0_10_3 => [0, 10, 3] | v0_11_0 => [0, 11, 0]
  | v0_11_0_2 => [0, 11, 0, 2] | v0_11_1 => [0, 11, 1] | v0_11_2 => [0, 11, 2]
  | v0_12_0 => [0, 12, 0] | v0_12_1 => [0, 12, 1] | v0_12_2 => [0, 12, 2]
  | v0_12_3 => [0, 12, 3] | v0_13_0 => [0, 13, 0] | v0_13_1 => [0, 13, 1]
  | v0_13_1_1 => [0, 13, 1, 1] | v0_13_2 => [0, 13, 2] | v0_13_2_1 => [0, 13, 2, 1]
  | v0_13_3 => [0, 13, 3]

/-- `TryFrom<Vec<u8>> for StarknetVersion`. -/
def ofBytes : List Nat → Option StarknetVersion
  | [0, 9, 1] => some v0_9_1 | [0, 10, 0] => some v0_10_0 | [0, 10, 1] => some v0_10_1
  | [0, 10, 2] => some v0_10_2 | [0, 10, 3] => some v0_10_3 | [0, 11, 0] => some v0_11_0
  | [0, 11, 0, 2] => some v0_11_0_2 | [0, 11, 1] => some v0_11_1 | [0, 11, 2] => some v0_11_2
  | [0, 12, 0] => some v0_12_0 | [0, 12, 1] => some v0_12_1 | [0, 12, 2] => some v0_12_2
  | [0, 12, 3] => some v0_12_3 | [0, 13, 0] => some v0_13_0 | [0, 13, 1] => some v0_13_1
  | [0, 13, 1, 1] => some v0_13_1_1 | [0, 13, 2] => some v0_13_2
  | [0, 13, 2, 1] => some v0_13_2_1 | [0, 13, 3] => some v0_13_3
  | _ => none

/-- `Display`: the bytes in decimal, joined by dots. -/
def toString (v : StarknetVersion) : List Char :=
  ['.'].intercalate (v.toBytes.map (Nat.toDigits 10))

/-- `str::split('.')`. -/
def splitDots : List Char → List (List Char)
  | [] => [[]]
  | c :: cs =>
    match splitDots cs with
    | [] => [[c]]
    | piece :: pieces => if c = '.' then [] :: piece :: pieces else (c :: piece) :: pieces

/-- `str::parse::<u8>`: an optional `+`, then decimal digits, below `256`. -/
def parseU8 (s : List Char) : Option Nat :=
  let digits := match s with
    | '+' :: rest => rest
    | _ => s
  if digits = [] then none
  else if digits.all Char.isDigit then
    let value := digits.foldl (fun acc c => acc * 10 + (c.toNat - '0'.toNat)) 0
    if value ≤ 255 then some value else none
  else none

/-- `TryFrom<String> for StarknetVersion`. -/
def tryFromString (s : List Char) : Option StarknetVersion :=
  (splitDots s).mapM parseU8 >>= ofBytes

/-- Every version reads back from its text. -/
theorem tryFromString_toString (v : StarknetVersion) : tryFromString v.toString = some v := by
  cases v <;> decide

end StarknetVersion

/-- `GasPricePerToken`. -/
structure GasPricePerToken where
  priceInFri : Nat
  priceInWei : Nat

/-- `BlockHeaderWithoutHash`. -/
structure BlockHeaderWithoutHash where
  parentHash : Felt
  blockNumber : Nat
  l1GasPrice : GasPricePerToken
  l1DataGasPrice : GasPricePerToken
  l2GasPrice : GasPricePerToken
  stateRoot : Felt
  sequencer : Felt
  timestamp : Nat
  l1DaMode : L1DataAvailabilityMode
  starknetVersion : StarknetVersion

/-- `BlockHeader`. -/
structure BlockHeader where
  blockHash : Felt
  blockHeaderWithoutHash : BlockHeaderWithoutHash
  stateDiffCommitment : Option Felt
  stateDiffLength : Option Nat
  transactionCommitment : Option Felt
  eventCommitment : Option Felt
  nTransactions : Nat
  nEvents : Nat
  receiptCommitment : Option Felt

/-- `BlockSignature`. -/
structure BlockSignature where
  r : Felt
  s : Felt

/-- `SignedBlockHeader`. -/
structure SignedBlockHeader where
  blockHeader : BlockHeader
  signatures : List BlockSignature

/-- `DataOrFin<T>`: a value, or the end of a stream. -/
structure DataOrFin (T : Type) where
  data : Option T

/-- `EventContent`. -/
structure EventContent where
  keys : List Felt
  data : List Felt

/-- `Event`. -/
structure Event where
  fromAddress : Felt
  content : EventContent

/-! ## 4. `common.rs` -/

namespace Proto

/-- `TryFrom<protobuf::Felt252> for Felt`: `copy_from_slice` into `[u8; 32]`, with no check of
the length. -/
def Felt252.toFelt (value : Felt252) : Conv Felt :=
  if value.elements.length = 32 then pure (feltFromBytesBe value.elements) else abort

/-- The check `TryFrom<protobuf::Hash>` and `TryFrom<protobuf::Address>` make before their
`copy_from_slice`. -/
def checkLength (typeDescription : String) (elements : List UInt8) : Conv (List UInt8) :=
  if elements.length ≠ 32 then throw (.bytesDataLengthMismatch typeDescription 32 elements)
  else pure elements

/-- `TryFrom<protobuf::Hash> for StarkHash`. -/
def Hash.toStarkHash (value : Hash) : Conv Felt := do
  let elements ← checkLength "Hash" value.elements
  pure (feltFromBytesBe elements)

/-- `TryFrom<protobuf::Address> for ContractAddress`: a hash below the `PatriciaKey` bound. -/
def Address.toContractAddress (value : Address) : Conv Felt := do
  let elements ← checkLength "Address" value.elements
  let hash := feltFromBytesBe elements
  if hash < patriciaKeyUpperBound then pure hash else throw (.outOfRangeValue "Address")

/-- `From<protobuf::Uint128> for u128`. -/
def Uint128.toU128 (value : Uint128) : Nat := value.low + value.high * 2 ^ 64

end Proto

/-- `From<Felt> for protobuf::Felt252`. -/
def Proto.Felt252.ofFelt (value : Felt) : Proto.Felt252 := ⟨feltToBytesBe value⟩

/-- `From<StarkHash> for protobuf::Hash`. -/
def Proto.Hash.ofStarkHash (value : Felt) : Proto.Hash := ⟨feltToBytesBe value⟩

/-- `From<ContractAddress> for protobuf::Address`. -/
def Proto.Address.ofContractAddress (value : Felt) : Proto.Address := ⟨feltToBytesBe value⟩

/-- `From<u128> for protobuf::Uint128`: `(value >> 64) as u64` and `value as u64`. -/
def Proto.Uint128.ofU128 (value : Nat) : Proto.Uint128 := ⟨value % 2 ^ 64, value / 2 ^ 64 % 2 ^ 64⟩

/-- `enum_int_to_l1_data_availability_mode`. -/
def enumIntToL1DataAvailabilityMode (value : Int) : Conv L1DataAvailabilityMode :=
  match value with
  | 0 => pure .calldata
  | 1 => pure .blob
  | _ => throw (.outOfRangeValue "DataAvailabilityMode")

/-- `l1_data_availability_mode_to_enum_int`. -/
def l1DataAvailabilityModeToEnumInt : L1DataAvailabilityMode → Int
  | .calldata => 0
  | .blob => 1

/-! ## 5. `header.rs` -/

/-- `TryFrom<protobuf::ConsensusSignature> for BlockSignature`. -/
def Proto.ConsensusSignature.toBlockSignature (value : Proto.ConsensusSignature) :
    Conv BlockSignature := do
  let r ← (← okOrMissing value.r "SignedBlockHeader::r").toFelt
  let s ← (← okOrMissing value.s "SignedBlockHeader::s").toFelt
  pure ⟨r, s⟩

/-- `From<BlockSignature> for protobuf::ConsensusSignature`. -/
def Proto.ConsensusSignature.ofBlockSignature (value : BlockSignature) :
    Proto.ConsensusSignature :=
  ⟨some (.ofFelt value.r), some (.ofFelt value.s)⟩

/-- A gas price as the header decoder reads it: `u128::from(value.ok_or(MissingField)?)`. -/
def gasPrice (value : Option Proto.Uint128) (fieldDescription : String) : Conv Nat := do
  pure (← okOrMissing value fieldDescription).toU128

/-- `TryFrom<protobuf::SignedBlockHeader> for SignedBlockHeader`, field by field in the source's
order. -/
def SignedBlockHeader.ofProto (value : Proto.SignedBlockHeader) : Conv SignedBlockHeader := do
  let blockHash ← (← okOrMissing value.blockHash "SignedBlockHeader::block_hash").toStarkHash
  let parentHash ← (← okOrMissing value.parentHash "SignedBlockHeader::parent_hash").toStarkHash
  let timestamp := value.time
  let sequencer ← (← okOrMissing value.sequencerAddress
    "SignedBlockHeader::sequencer_address").toContractAddress
  let stateRoot ← (← okOrMissing value.stateRoot "SignedBlockHeader::state_root").toStarkHash
  let nTransactions := (← okOrMissing value.transactions "SignedBlockHeader::transactions").nLeaves
  let transactionCommitment ← ((← okOrMissing value.transactions
    "SignedBlockHeader::transactions").root).mapM Proto.Hash.toStarkHash
  let nEvents := (← okOrMissing value.events "SignedBlockHeader::events").nLeaves
  let eventCommitment ← ((← okOrMissing value.events
    "SignedBlockHeader::events").root).mapM Proto.Hash.toStarkHash
  let stateDiffLength := value.stateDiffCommitment.map (·.stateDiffLength)
  let l1DaMode ← enumIntToL1DataAvailabilityMode value.l1DataAvailabilityMode
  let starknetVersion ← match StarknetVersion.tryFromString value.protocolVersion with
    | some version => pure version
    | none => throw (.outOfRangeValue "starknet version")
  let l1GasPrice : GasPricePerToken :=
    ⟨← gasPrice value.gasPriceFri "SignedBlockHeader::gas_price_fri",
      ← gasPrice value.gasPriceWei "SignedBlockHeader::gas_price_wei"⟩
  let l1DataGasPrice : GasPricePerToken :=
    ⟨← gasPrice value.dataGasPriceFri "SignedBlockHeader::data_gas_price_fri",
      ← gasPrice value.dataGasPriceWei "SignedBlockHeader::data_gas_price_wei"⟩
  let l2GasPrice : GasPricePerToken :=
    ⟨← gasPrice value.l2GasPriceFri "SignedBlockHeader::l2_gas_price_fri",
      ← gasPrice value.l2GasPriceWei "SignedBlockHeader::l2_gas_price_wei"⟩
  let receiptCommitment ← value.receipts.mapM Proto.Hash.toStarkHash
  -- the length's message is required here, whatever the header's `state_diff_length`
  let stateDiffCommitment ← ((← okOrMissing value.stateDiffCommitment
    "SignedBlockHeader::state_diff_commitment").root).mapM Proto.Hash.toStarkHash
  let signatures ← value.signatures.mapM Proto.ConsensusSignature.toBlockSignature
  pure ⟨⟨blockHash, ⟨parentHash, value.number, l1GasPrice, l1DataGasPrice, l2GasPrice, stateRoot,
    sequencer, timestamp, l1DaMode, starknetVersion⟩, stateDiffCommitment, stateDiffLength,
    transactionCommitment, eventCommitment, nTransactions, nEvents, receiptCommitment⟩, signatures⟩

/-- `From<(BlockHeader, Vec<BlockSignature>)> for protobuf::SignedBlockHeader`. -/
def Proto.SignedBlockHeader.ofBlockHeader (header : BlockHeader)
    (signatures : List BlockSignature) : Proto.SignedBlockHeader :=
  let h := header.blockHeaderWithoutHash
  -- no message for the commitment when there is no length
  let stateDiffCommitment := header.stateDiffLength.map fun stateDiffLength =>
    (⟨stateDiffLength, header.stateDiffCommitment.map .ofStarkHash⟩ : Proto.StateDiffCommitment)
  { blockHash := some (.ofStarkHash header.blockHash)
    parentHash := some (.ofStarkHash h.parentHash)
    number := h.blockNumber
    time := h.timestamp
    sequencerAddress := some (.ofContractAddress h.sequencer)
    stateDiffCommitment
    stateRoot := some (.ofStarkHash h.stateRoot)
    transactions := some ⟨header.nTransactions, header.transactionCommitment.map .ofStarkHash⟩
    events := some ⟨header.nEvents, header.eventCommitment.map .ofStarkHash⟩
    receipts := header.receiptCommitment.map .ofStarkHash
    protocolVersion := h.starknetVersion.toString
    gasPriceWei := some (.ofU128 h.l1GasPrice.priceInWei)
    gasPriceFri := some (.ofU128 h.l1GasPrice.priceInFri)
    dataGasPriceWei := some (.ofU128 h.l1DataGasPrice.priceInWei)
    dataGasPriceFri := some (.ofU128 h.l1DataGasPrice.priceInFri)
    l2GasPriceWei := some (.ofU128 h.l2GasPrice.priceInWei)
    l2GasPriceFri := some (.ofU128 h.l2GasPrice.priceInFri)
    l1DataAvailabilityMode := l1DataAvailabilityModeToEnumInt h.l1DaMode
    signatures := signatures.map .ofBlockSignature }

/-- `TryFrom<protobuf::BlockHeadersResponse> for DataOrFin<SignedBlockHeader>`. -/
def DataOrFin.ofBlockHeadersResponse (value : Proto.BlockHeadersResponse) :
    Conv (DataOrFin SignedBlockHeader) :=
  match value.headerMessage with
  | some (.header header) => do pure ⟨some (← SignedBlockHeader.ofProto header)⟩
  | some (.fin _) => pure ⟨none⟩
  | none => throw (.missingField "BlockHeadersResponse::header_message")

/-- `From<DataOrFin<SignedBlockHeader>> for protobuf::BlockHeadersResponse`. -/
def Proto.BlockHeadersResponse.ofDataOrFin (value : DataOrFin Protobuf.SignedBlockHeader) :
    Proto.BlockHeadersResponse :=
  match value.data with
  | some ⟨blockHeader, signatures⟩ => ⟨some (.header (.ofBlockHeader blockHeader signatures))⟩
  | none => ⟨some (.fin ⟨⟩)⟩

/-! ## 6. `event.rs` -/

/-- `TryFrom<protobuf::Event> for (Event, TransactionHash)`. -/
def Event.ofProto (value : Proto.Event) : Conv (Event × Felt) := do
  let transactionHash ← (← okOrMissing value.transactionHash "Event::transaction_hash").toStarkHash
  let fromAddressFelt ← (← okOrMissing value.fromAddress "Event::from_address").toFelt
  let fromAddress ← if fromAddressFelt < patriciaKeyUpperBound then pure fromAddressFelt
    else throw (.outOfRangeValue "PatriciaKey")
  let keys ← value.keys.mapM Proto.Felt252.toFelt
  let data ← value.data.mapM Proto.Felt252.toFelt
  pure (⟨fromAddress, ⟨keys, data⟩⟩, transactionHash)

/-- `From<(Event, TransactionHash)> for protobuf::Event`. -/
def Proto.Event.ofEvent (value : Protobuf.Event × Felt) : Proto.Event :=
  ⟨some (.ofStarkHash value.2), some (.ofFelt value.1.fromAddress),
    value.1.content.keys.map .ofFelt, value.1.content.data.map .ofFelt⟩

/-- `TryFrom<protobuf::EventsResponse> for DataOrFin<(Event, TransactionHash)>`. -/
def DataOrFin.ofEventsResponse (value : Proto.EventsResponse) :
    Conv (DataOrFin (Event × Felt)) :=
  match value.eventMessage with
  | some (.event event) => do pure ⟨some (← Event.ofProto event)⟩
  | some (.fin _) => pure ⟨none⟩
  | none => throw (.missingField "EventsResponse::event_message")

/-- `From<DataOrFin<(Event, TransactionHash)>> for protobuf::EventsResponse`. -/
def Proto.EventsResponse.ofDataOrFin (value : DataOrFin (Protobuf.Event × Felt)) :
    Proto.EventsResponse :=
  match value.data with
  | some event => ⟨some (.event (.ofEvent event))⟩
  | none => ⟨some (.fin ⟨⟩)⟩

/-! ## 7. `auto_impl_into_and_try_from_vec_u8` -/

section Bytes

variable {M T : Type} (codec : Codec M)

/-- `From<T> for Vec<u8>`: the message, encoded. -/
def intoVec (toProto : T → M) (value : T) : List UInt8 := codec.encode (toProto value)

/-- `TryFrom<Vec<u8>> for T`: the bytes, decoded, then converted. -/
def tryFromVec (fromProto : M → Conv T) (bytes : List UInt8) : Conv T :=
  match codec.decode bytes with
  | .error error => throw (.decodeError error)
  | .ok message => fromProto message

/-- Decoding what `prost` encoded converts the message it encoded. -/
@[simp] theorem tryFromVec_encode (fromProto : M → Conv T) (message : M) :
    tryFromVec codec fromProto (codec.encode message) = fromProto message := by
  simp [tryFromVec, codec.decode_encode]

end Bytes

/-! ## 8. What a conversion does on values of the Rust types -/

section Panics

variable {α : Type}

/-- A panic is not a value. -/
theorem abort_ne_pure (a : α) : (abort : Conv α) ≠ pure a := by
  intro h
  have := congrArg ExceptT.run h
  simp [abort, ExceptT.run_lift] at this

@[simp] theorem abort_bind {β : Type} (f : α → Conv β) : (abort >>= f) = abort := rfl

@[simp] theorem map_abort {β : Type} (f : α → β) : (f <$> abort : Conv β) = abort := rfl

@[simp] theorem okOrMissing_some (a : α) (fieldDescription : String) :
    okOrMissing (some a) fieldDescription = pure a := rfl

@[simp] theorem okOrMissing_none (fieldDescription : String) :
    (okOrMissing none fieldDescription : Conv α) = throw (.missingField fieldDescription) := rfl

end Panics

/-- The bytes of a felt, read back digit by digit: after `k` of them the accumulator has been
shifted by `k` bytes and holds the low `k` bytes of the value. -/
theorem foldl_feltToBytes (x acc k : Nat) :
    ((List.range k).reverse.map fun i => UInt8.ofNat (x / 256 ^ i)).foldl
      (fun acc b => acc * 256 + b.toNat) acc = acc * 256 ^ k + x % 256 ^ k := by
  induction k generalizing acc with
  | zero => simp [Nat.mod_one]
  | succ k ih =>
    -- the most significant byte is read first
    rw [List.range_succ, List.reverse_append, List.reverse_singleton, List.singleton_append,
      List.map_cons, List.foldl_cons, ih, Nat.mod_pow_succ, UInt8.toNat_ofNat']
    ring

@[simp] theorem length_feltToBytesBe (x : Felt) : (feltToBytesBe x).length = 32 := by
  simp [feltToBytesBe]

theorem feltFromBytesBe_feltToBytesBe {x : Felt} (hx : x < feltPrime) :
    feltFromBytesBe (feltToBytesBe x) = x := by
  have hlt : x < 256 ^ 32 := lt_trans hx (by decide)
  rw [feltFromBytesBe, feltToBytesBe, foldl_feltToBytes, Nat.zero_mul, Nat.zero_add,
    Nat.mod_eq_of_lt hlt, Nat.mod_eq_of_lt hx]

namespace Proto

/-- The decoder of `Felt252` panics exactly on the byte strings that are not 32 long. -/
theorem Felt252.toFelt_eq_abort_iff (value : Felt252) :
    value.toFelt = abort ↔ value.elements.length ≠ 32 := by
  by_cases h : value.elements.length = 32
  · simpa [Felt252.toFelt, h] using (abort_ne_pure _).symm
  · simp [Felt252.toFelt, h]

theorem checkLength_of_length {typeDescription : String} {elements : List UInt8}
    (h : elements.length = 32) : checkLength typeDescription elements = pure elements := by
  simp [checkLength, h]

/-- The decoders of `Hash` and `Address` check the length first, so they never panic. -/
theorem Hash.toStarkHash_ne_abort (value : Hash) : value.toStarkHash ≠ abort := by
  by_cases h : value.elements.length = 32
  · simp only [toStarkHash, checkLength_of_length h, pure_bind]
    exact (abort_ne_pure _).symm
  · intro habort
    have := congrArg ExceptT.run habort
    simp [toStarkHash, checkLength, h, abort, ExceptT.run_lift] at this

theorem Address.toContractAddress_ne_abort (value : Address) : value.toContractAddress ≠ abort := by
  intro habort
  have := congrArg ExceptT.run habort
  by_cases h : value.elements.length = 32
  · by_cases hk : feltFromBytesBe value.elements < patriciaKeyUpperBound
    · simp [toContractAddress, checkLength_of_length h, hk, abort, ExceptT.run_lift] at this
    · simp [toContractAddress, checkLength_of_length h, hk, abort, ExceptT.run_lift] at this
  · simp [toContractAddress, checkLength, h, abort, ExceptT.run_lift] at this

theorem Felt252.toFelt_ofFelt {x : Felt} (hx : x < feltPrime) : (Felt252.ofFelt x).toFelt = pure x := by
  simp [toFelt, ofFelt, feltFromBytesBe_feltToBytesBe hx]

theorem Hash.toStarkHash_ofStarkHash {x : Felt} (hx : x < feltPrime) :
    (Hash.ofStarkHash x).toStarkHash = pure x := by
  simp [toStarkHash, ofStarkHash, checkLength_of_length, feltFromBytesBe_feltToBytesBe hx]

theorem Address.toContractAddress_ofContractAddress {x : Felt} (hx : x < patriciaKeyUpperBound) :
    (Address.ofContractAddress x).toContractAddress = pure x := by
  have hp : x < feltPrime := lt_trans hx (by decide)
  simp [toContractAddress, ofContractAddress, checkLength_of_length,
    feltFromBytesBe_feltToBytesBe hp, hx]

theorem Uint128.toU128_ofU128 {x : Nat} (hx : x < 2 ^ 128) : (Uint128.ofU128 x).toU128 = x := by
  simp only [toU128, ofU128]
  have hhigh : x / 2 ^ 64 < 2 ^ 64 := Nat.div_lt_of_lt_mul (by simpa using hx)
  rw [Nat.mod_eq_of_lt hhigh]
  omega

end Proto

theorem enumIntToL1DataAvailabilityMode_toEnumInt (mode : L1DataAvailabilityMode) :
    enumIntToL1DataAvailabilityMode (l1DataAvailabilityModeToEnumInt mode) = pure mode := by
  cases mode <;> rfl

section Lists

variable {α β : Type} {f : α → Conv β} {g : β → α}

/-- Converting back what was converted, element by element. -/
theorem mapM_map_of_forall {bs : List β} (h : ∀ b ∈ bs, f (g b) = pure b) :
    (bs.map g).mapM f = pure bs := by
  induction bs with
  | nil => rfl
  | cons b bs ih =>
    have htail : (bs.map g).mapM f = pure bs := ih fun b hb => h b (List.mem_cons_of_mem _ hb)
    simp only [List.map_cons, List.mapM_cons, h b List.mem_cons_self, htail, pure_bind]

theorem optionMapM_map_of_forall {o : Option β} (h : ∀ b ∈ o, f (g b) = pure b) :
    (o.map g).mapM f = pure o := by
  cases o with
  | none => rfl
  | some b => simp [h b rfl]

end Lists

/-! ## 9. Block headers -/

/-- The domain of the Rust types: a price is a `u128`. -/
structure GasPricePerToken.Valid (price : GasPricePerToken) : Prop where
  priceInFri : price.priceInFri < 2 ^ 128
  priceInWei : price.priceInWei < 2 ^ 128

/-- The domain of the Rust types: hashes and commitments are field elements, the sequencer a
`PatriciaKey`, the prices `u128`s. -/
structure BlockHeader.Valid (header : BlockHeader) : Prop where
  blockHash : header.blockHash < feltPrime
  parentHash : header.blockHeaderWithoutHash.parentHash < feltPrime
  stateRoot : header.blockHeaderWithoutHash.stateRoot < feltPrime
  sequencer : header.blockHeaderWithoutHash.sequencer < patriciaKeyUpperBound
  l1GasPrice : header.blockHeaderWithoutHash.l1GasPrice.Valid
  l1DataGasPrice : header.blockHeaderWithoutHash.l1DataGasPrice.Valid
  l2GasPrice : header.blockHeaderWithoutHash.l2GasPrice.Valid
  stateDiffCommitment : ∀ c ∈ header.stateDiffCommitment, c < feltPrime
  transactionCommitment : ∀ c ∈ header.transactionCommitment, c < feltPrime
  eventCommitment : ∀ c ∈ header.eventCommitment, c < feltPrime
  receiptCommitment : ∀ c ∈ header.receiptCommitment, c < feltPrime

structure BlockSignature.Valid (signature : BlockSignature) : Prop where
  r : signature.r < feltPrime
  s : signature.s < feltPrime

structure SignedBlockHeader.Valid (signedHeader : SignedBlockHeader) : Prop where
  blockHeader : signedHeader.blockHeader.Valid
  signatures : ∀ s ∈ signedHeader.signatures, s.Valid

theorem Proto.ConsensusSignature.toBlockSignature_ofBlockSignature {signature : BlockSignature}
    (hs : signature.Valid) : (ofBlockSignature signature).toBlockSignature = pure signature := by
  simp [toBlockSignature, ofBlockSignature, Felt252.toFelt_ofFelt hs.r, Felt252.toFelt_ofFelt hs.s]

/-- A valid header comes back from its message, except that a header with no
`state_diff_length` fails on the message the encoder left out. -/
theorem SignedBlockHeader.ofProto_ofBlockHeader {header : BlockHeader}
    {signatures : List BlockSignature} (hv : header.Valid) (hs : ∀ s ∈ signatures, s.Valid) :
    ofProto (.ofBlockHeader header signatures) =
      match header.stateDiffLength with
      | some _ => pure ⟨header, signatures⟩
      | none => throw (.missingField "SignedBlockHeader::state_diff_commitment") := by
  obtain ⟨blockHash, ⟨parentHash, blockNumber, l1GasPrice, l1DataGasPrice, l2GasPrice, stateRoot,
    sequencer, timestamp, l1DaMode, starknetVersion⟩, stateDiffCommitment, stateDiffLength,
    transactionCommitment, eventCommitment, nTransactions, nEvents, receiptCommitment⟩ := header
  have hsig : (signatures.map Proto.ConsensusSignature.ofBlockSignature).mapM
      Proto.ConsensusSignature.toBlockSignature = pure signatures :=
    mapM_map_of_forall fun s hm => Proto.ConsensusSignature.toBlockSignature_ofBlockSignature (hs s hm)
  have hcommitment {commitment : Option Felt} (hc : ∀ c ∈ commitment, c < feltPrime) :
      (commitment.map Proto.Hash.ofStarkHash).mapM Proto.Hash.toStarkHash = pure commitment :=
    optionMapM_map_of_forall fun c hm => Proto.Hash.toStarkHash_ofStarkHash (hc c hm)
  -- every field before the state diff's converts back
  simp [ofProto, Proto.SignedBlockHeader.ofBlockHeader, gasPrice,
    Proto.Hash.toStarkHash_ofStarkHash hv.blockHash, Proto.Hash.toStarkHash_ofStarkHash hv.parentHash,
    Proto.Hash.toStarkHash_ofStarkHash hv.stateRoot,
    Proto.Address.toContractAddress_ofContractAddress hv.sequencer,
    hcommitment hv.transactionCommitment, hcommitment hv.eventCommitment,
    hcommitment hv.receiptCommitment, enumIntToL1DataAvailabilityMode_toEnumInt,
    StarknetVersion.tryFromString_toString,
    Proto.Uint128.toU128_ofU128 hv.l1GasPrice.priceInFri,
    Proto.Uint128.toU128_ofU128 hv.l1GasPrice.priceInWei,
    Proto.Uint128.toU128_ofU128 hv.l1DataGasPrice.priceInFri,
    Proto.Uint128.toU128_ofU128 hv.l1DataGasPrice.priceInWei,
    Proto.Uint128.toU128_ofU128 hv.l2GasPrice.priceInFri,
    Proto.Uint128.toU128_ofU128 hv.l2GasPrice.priceInWei, hsig]
  -- and the state diff's message is there exactly when the length is
  cases stateDiffLength with
  | none => rfl
  | some stateDiffLength => simp [hcommitment hv.stateDiffCommitment]

/-- The end of a stream of headers goes over the wire and back. -/
theorem blockHeaders_fin_roundtrip (codec : Codec Proto.BlockHeadersResponse) :
    tryFromVec codec DataOrFin.ofBlockHeadersResponse
      (intoVec codec Proto.BlockHeadersResponse.ofDataOrFin ⟨none⟩) = pure ⟨none⟩ := by
  simp [intoVec, Proto.BlockHeadersResponse.ofDataOrFin, DataOrFin.ofBlockHeadersResponse]

/-- Over the wire, a valid header with a `state_diff_length` comes back as it was sent. -/
theorem blockHeaders_roundtrip_of_isSome (codec : Codec Proto.BlockHeadersResponse)
    {signedHeader : SignedBlockHeader} (hv : signedHeader.Valid)
    (hlen : signedHeader.blockHeader.stateDiffLength.isSome) :
    tryFromVec codec DataOrFin.ofBlockHeadersResponse
      (intoVec codec Proto.BlockHeadersResponse.ofDataOrFin ⟨some signedHeader⟩) =
      pure ⟨some signedHeader⟩ := by
  obtain ⟨header, signatures⟩ := signedHeader
  obtain ⟨n, hn⟩ := Option.isSome_iff_exists.mp hlen
  have hdecode := SignedBlockHeader.ofProto_ofBlockHeader hv.blockHeader hv.signatures
  rw [hn] at hdecode
  simp [intoVec, Proto.BlockHeadersResponse.ofDataOrFin, DataOrFin.ofBlockHeadersResponse, hdecode]

/-- The genesis-like header: every number zero, no state diff length. -/
def headerWithoutStateDiffLength : SignedBlockHeader :=
  ⟨⟨0, ⟨0, 0, ⟨0, 0⟩, ⟨0, 0⟩, ⟨0, 0⟩, 0, 0, 0, .calldata, .v0_13_3⟩, none, none, none, none, 0, 0,
    none⟩, []⟩

theorem eventsResponse_tryFrom_panics {event : Proto.Event} {transactionHash : Proto.Hash}
    {fromAddress : Proto.Felt252} (htx : event.transactionHash = some transactionHash)
    (htxLength : transactionHash.elements.length = 32)
    (hfrom : event.fromAddress = some fromAddress) (hfromLength : fromAddress.elements.length ≠ 32) :
    ∀ codec : Codec Proto.EventsResponse,
      tryFromVec codec DataOrFin.ofEventsResponse (codec.encode ⟨some (.event event)⟩) = abort := by
  intro codec
  -- the transaction hash passes its check; the address reaches `copy_from_slice`
  have hhash : transactionHash.toStarkHash = pure (feltFromBytesBe transactionHash.elements) := by
    simp [Proto.Hash.toStarkHash, Proto.checkLength_of_length htxLength]
  have habort : fromAddress.toFelt = abort := (Proto.Felt252.toFelt_eq_abort_iff _).mpr hfromLength
  simp [DataOrFin.ofEventsResponse, Event.ofProto, htx, hfrom, hhash, habort]

/-- An event whose transaction hash is 32 zero bytes and whose `from_address` is empty: on the
wire, `0A 26 0A 22 0A 20` and 32 zero bytes, then `1A 00`. -/
def eventWithEmptyAddress : Proto.Event :=
  ⟨some ⟨List.replicate 32 0⟩, some ⟨[]⟩, [], []⟩

theorem eventsResponse_tryFrom_panics_on_empty_address :
    eventWithEmptyAddress.transactionHash = some ⟨List.replicate 32 0⟩ ∧
      (⟨List.replicate 32 0⟩ : Proto.Hash).elements.length = 32 ∧
      eventWithEmptyAddress.fromAddress = some ⟨[]⟩ ∧ (⟨[]⟩ : Proto.Felt252).elements.length ≠ 32 ∧
      ∀ codec : Codec Proto.EventsResponse,
        tryFromVec codec DataOrFin.ofEventsResponse
          (codec.encode ⟨some (.event eventWithEmptyAddress)⟩) = abort :=
  ⟨rfl, by decide, rfl, by decide, eventsResponse_tryFrom_panics rfl (by decide) rfl (by decide)⟩

/-! ## 11. Resource bounds (`transaction.rs`) -/

open Sequencer.Fee (ValidResourceBounds)

/-- `try_from_starkfelt_to_u128`: the felt's top 16 bytes must be zero. -/
def tryFromStarkfeltToU128 (felt : Felt) : Except String Nat :=
  if felt < 2 ^ 128 then .ok felt else .error "Value out of range"

theorem tryFromStarkfeltToU128_of_lt {felt : Felt} (h : felt < 2 ^ 128) :
    tryFromStarkfeltToU128 felt = .ok felt := if_pos h

/-- `TryFrom<protobuf::ResourceLimits> for ResourceBounds`. -/
def Proto.ResourceLimits.toResourceBounds (value : Proto.ResourceLimits) :
    Conv Fee.ResourceBounds := do
  let maxPricePerUnitFelt ← (← okOrMissing value.maxPricePerUnit
    "ResourceBounds::ResourceLimits::max_price_per_unit").toFelt
  let maxPricePerUnit ← match tryFromStarkfeltToU128 maxPricePerUnitFelt with
    | .ok price => pure price
    | .error _ => throw (.outOfRangeValue "u128")
  pure ⟨value.maxAmount, maxPricePerUnit⟩

/-- `TryFrom<protobuf::ResourceBounds> for ValidResourceBounds`: the variant is chosen from
whether the decoded L2 and L1-data bounds are zero. -/
def Proto.ResourceBounds.toValidResourceBounds (value : Proto.ResourceBounds) :
    Conv ValidResourceBounds := do
  let l1Gas ← okOrMissing value.l1Gas "ResourceBounds::l1_gas"
  let l2Gas ← okOrMissing value.l2Gas "ResourceBounds::l2_gas"
  -- `unwrap_or_default()`: a message with no price, which the conversion below rejects
  let l1DataGas := value.l1DataGas.getD ⟨0, none⟩
  let l1Gas ← l1Gas.toResourceBounds
  let l2Gas ← l2Gas.toResourceBounds
  let l1DataGas ← l1DataGas.toResourceBounds
  pure (if l1DataGas.isZero && l2Gas.isZero then .l1Gas l1Gas
    else .allResources ⟨l1Gas, l2Gas, l1DataGas⟩)

/-- `From<ResourceBounds> for protobuf::ResourceLimits`. -/
def Proto.ResourceLimits.ofResourceBounds (value : Fee.ResourceBounds) : Proto.ResourceLimits :=
  ⟨value.maxAmount, some (.ofFelt value.maxPricePerUnit)⟩

/-- `From<ValidResourceBounds> for protobuf::ResourceBounds`. -/
def Proto.ResourceBounds.ofValidResourceBounds (value : ValidResourceBounds) :
    Proto.ResourceBounds :=
  match value with
  | .l1Gas l1Gas =>
    ⟨some (.ofResourceBounds l1Gas), some (.ofResourceBounds value.getL2Bounds),
      some (.ofResourceBounds ⟨0, 0⟩)⟩
  | .allResources ⟨l1Gas, l2Gas, l1DataGas⟩ =>
    ⟨some (.ofResourceBounds l1Gas), some (.ofResourceBounds l2Gas),
      some (.ofResourceBounds l1DataGas)⟩

/-- A bound whose price is a `u128` converts back. -/
theorem Proto.ResourceLimits.toResourceBounds_ofResourceBounds {b : Fee.ResourceBounds}
    (hb : b.maxPricePerUnit < 2 ^ 128) : (ofResourceBounds b).toResourceBounds = pure b := by
  have hp : b.maxPricePerUnit < feltPrime := lt_trans hb (by decide)
  simp [toResourceBounds, ofResourceBounds, Proto.Felt252.toFelt_ofFelt hp,
    tryFromStarkfeltToU128_of_lt hb]

/-- What comes back from a valid `ValidResourceBounds`: the same bounds, except that
`AllResources` with zero L2 and L1-data bounds comes back as `L1Gas`. -/
theorem Proto.ResourceBounds.toValidResourceBounds_ofValidResourceBounds
    {l1Gas l2Gas l1DataGas : Fee.ResourceBounds}
    (h1 : l1Gas.maxPricePerUnit < 2 ^ 128) (h2 : l2Gas.maxPricePerUnit < 2 ^ 128)
    (h3 : l1DataGas.maxPricePerUnit < 2 ^ 128) :
    (ofValidResourceBounds (.l1Gas l1Gas)).toValidResourceBounds = pure (.l1Gas l1Gas) ∧
      (ofValidResourceBounds (.allResources ⟨l1Gas, l2Gas, l1DataGas⟩)).toValidResourceBounds =
        pure (if l1DataGas.isZero && l2Gas.isZero then .l1Gas l1Gas
          else .allResources ⟨l1Gas, l2Gas, l1DataGas⟩) := by
  have hzero : (⟨0, 0⟩ : Fee.ResourceBounds).maxPricePerUnit < 2 ^ 128 := by decide
  constructor
  · simp [ofValidResourceBounds, toValidResourceBounds, ValidResourceBounds.getL2Bounds,
      Proto.ResourceLimits.toResourceBounds_ofResourceBounds h1,
      Proto.ResourceLimits.toResourceBounds_ofResourceBounds hzero, Fee.ResourceBounds.isZero]
  · simp [ofValidResourceBounds, toValidResourceBounds,
      Proto.ResourceLimits.toResourceBounds_ofResourceBounds h1,
      Proto.ResourceLimits.toResourceBounds_ofResourceBounds h2,
      Proto.ResourceLimits.toResourceBounds_ofResourceBounds h3]

end Sequencer.Protobuf
