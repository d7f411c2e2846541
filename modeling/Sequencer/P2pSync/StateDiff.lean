/-
# Transferring a state diff over P2P sync (`papyrus_p2p_sync`)

A server sends a block's `ThinStateDiff` as the chunks of `split_thin_state_diff`, one
`ContractDiff` for each contract the diff touches and one chunk for each declared class, and
then `Fin`.  A client rebuilds the diff with `unite_state_diffs`, chunk by chunk, until the
length it has read reaches the `state_diff_length` of the block's header
(`StateDiffStreamBuilder::parse_data_for_block`), and appends it to its storage.

The wire format has one class hash per contract.  The server puts a replaced class there, and
the client reads every class hash back as a deployment; the storage writes the default nonce for
a deployment without a nonce diff.  `transfer_resets_nonce_of_replaced_class` is a transfer
after which client and server disagree on a nonce.

The stream of responses is a list of `Option StateDiffChunk`, `none` being `Fin`; the timeout and
the errors of the network layer are not modelled.  The order in which the server iterates its
`HashSet` of contract addresses is unspecified, and the model takes the ascending order of the
`BTreeSet` the source uses under test.
-/
import Sequencer.Storage.State
import Mathlib.Data.List.Dedup

namespace Sequencer.Storage

namespace ThinStateDiff

/-- `ThinStateDiff::default`. -/
def default : ThinStateDiff :=
  ⟨IndexMap.empty, IndexMap.empty, IndexMap.empty, [], IndexMap.empty, IndexMap.empty⟩

/-- `ThinStateDiff::len`, the `state_diff_length` of the block's header. -/
def len (d : ThinStateDiff) : Nat :=
  d.deployedContracts.len + d.declaredClasses.len + d.deprecatedDeclaredClasses.length +
    d.nonces.len + d.replacedClasses.len +
    d.storageDiffs.entries.foldl (fun result e => result + e.2.len) 0

end ThinStateDiff

end Sequencer.Storage

namespace Sequencer.P2pSync

open Storage

/-! ## 1. Chunks -/

/-- `ContractDiff`: what a block changed in one contract. -/
structure ContractDiff where
  contractAddress : ContractAddress
  classHash : Option ClassHash
  nonce : Option Nonce
  storageDiffs : IndexMap StorageKey Felt

/-- `StateDiffChunk`. -/
inductive StateDiffChunk
  | contractDiff (contractDiff : ContractDiff)
  | declaredClass (classHash : ClassHash) (compiledClassHash : CompiledClassHash)
  | deprecatedDeclaredClass (classHash : ClassHash)

namespace StateDiffChunk

/-- `StateDiffChunk::len`: how much of `ThinStateDiff::len` the chunk carries. -/
def len : StateDiffChunk → Nat
  | .contractDiff diff =>
    diff.storageDiffs.len + (if diff.classHash.isSome then 1 else 0) +
      (if diff.nonce.isSome then 1 else 0)
  | .declaredClass _ _ => 1
  | .deprecatedDeclaredClass _ => 1

/-- `StateDiffChunk::is_empty`. -/
def isEmpty (chunk : StateDiffChunk) : Bool := chunk.len == 0

end StateDiffChunk

/-! ## 2. The server -/

/-- `split_thin_state_diff`: one `ContractDiff` for each contract address among the keys of the
four contract maps, whose class hash is the deployed class, else the replaced one; then the
declared classes and the deprecated declared classes. -/
def splitThinStateDiff (thinStateDiff : ThinStateDiff) : List StateDiffChunk :=
  let contractAddresses := BTreeSet.extend compare []
    (thinStateDiff.deployedContracts.keys ++ thinStateDiff.replacedClasses.keys ++
      thinStateDiff.nonces.keys ++ thinStateDiff.storageDiffs.keys)
  contractAddresses.map (fun contractAddress => .contractDiff
      ⟨contractAddress,
        (thinStateDiff.deployedContracts.get contractAddress).or
          (thinStateDiff.replacedClasses.get contractAddress),
        thinStateDiff.nonces.get contractAddress,
        (thinStateDiff.storageDiffs.get contractAddress).getD IndexMap.empty⟩) ++
    thinStateDiff.declaredClasses.entries.map (fun e => .declaredClass e.1 e.2) ++
    thinStateDiff.deprecatedDeclaredClasses.map .deprecatedDeclaredClass

/-! ## 3. The client -/

/-- `P2PSyncClientError`, the variants that `parse_data_for_block` returns. -/
inductive P2PSyncClientError
  | oldHeaderInStorage (blockNumber : BlockNumber) (missingField : String)
  | receiverChannelTerminated (typeDescription : String)
  | wrongStateDiffLength (expectedLength : Nat) (possibleLengths : List Nat)
  | emptyStateDiffPart
  | conflictingStateDiffParts
  deriving DecidableEq, Repr

/-- An `insert` whose displaced value is a conflict, as each map of `unite_state_diffs` is
written. -/
def insertOrConflict {κ ν : Type} [DecidableEq κ] (m : IndexMap κ ν) (k : κ) (v : ν) :
    Except P2PSyncClientError (IndexMap κ ν) :=
  let (old, m') := m.insert k v
  if old.isSome then throw .conflictingStateDiffParts else pure m'

/-- `unite_state_diffs`: a chunk added to the diff read so far. -/
def uniteStateDiffs (stateDiff : ThinStateDiff) :
    StateDiffChunk → Except P2PSyncClientError ThinStateDiff
  | .contractDiff contractDiff => do
    let deployedContracts ← (match contractDiff.classHash with
      | some classHash =>
        insertOrConflict stateDiff.deployedContracts contractDiff.contractAddress classHash
      | none => pure stateDiff.deployedContracts)
    let nonces ← (match contractDiff.nonce with
      | some nonce => insertOrConflict stateDiff.nonces contractDiff.contractAddress nonce
      | none => pure stateDiff.nonces)
    let storageDiffs ← (if !contractDiff.storageDiffs.isEmpty then
        match stateDiff.storageDiffs.get contractDiff.contractAddress with
        | some storageDiffs => do
          -- `get_mut`: the contract's map is extended in place
          let storageDiffs ← contractDiff.storageDiffs.entries.foldlM
            (fun m e => insertOrConflict m e.1 e.2) storageDiffs
          pure (stateDiff.storageDiffs.insert contractDiff.contractAddress storageDiffs).2
        | none =>
          pure (stateDiff.storageDiffs.insert contractDiff.contractAddress
            contractDiff.storageDiffs).2
      else pure stateDiff.storageDiffs)
    pure ⟨deployedContracts, storageDiffs, stateDiff.declaredClasses,
      stateDiff.deprecatedDeclaredClasses, nonces, stateDiff.replacedClasses⟩
  | .declaredClass classHash compiledClassHash => do
    let declaredClasses ← insertOrConflict stateDiff.declaredClasses classHash compiledClassHash
    pure ⟨stateDiff.deployedContracts, stateDiff.storageDiffs, declaredClasses,
      stateDiff.deprecatedDeclaredClasses, stateDiff.nonces, stateDiff.replacedClasses⟩
  | .deprecatedDeclaredClass classHash =>
    pure ⟨stateDiff.deployedContracts, stateDiff.storageDiffs, stateDiff.declaredClasses,
      stateDiff.deprecatedDeclaredClasses ++ [classHash], stateDiff.nonces,
      stateDiff.replacedClasses⟩

/-- `validate_deprecated_declared_classes_non_conflicting`. -/
def validateDeprecatedDeclaredClassesNonConflicting (stateDiff : ThinStateDiff) :
    Except P2PSyncClientError Unit :=
  if stateDiff.deprecatedDeclaredClasses.length = stateDiff.deprecatedDeclaredClasses.dedup.length
  then pure () else throw .conflictingStateDiffParts

/-- The loop of `parse_data_for_block`, on the responses still to come: it reads chunks while
the length read is below the target, and ends with the diff read and the last two lengths, or
with `none` when `Fin` comes before any chunk. -/
def parseStateDiffChunks (targetStateDiffLen : Nat) (result : ThinStateDiff)
    (prevResultLen currentStateDiffLen : Nat) :
    List (Option StateDiffChunk) →
      Except P2PSyncClientError (Option (ThinStateDiff × Nat × Nat))
  | [] =>
    if currentStateDiffLen < targetStateDiffLen then
      throw (.receiverChannelTerminated "state diffs")
    else pure (some (result, prevResultLen, currentStateDiffLen))
  | response :: responses =>
    if currentStateDiffLen < targetStateDiffLen then
      match response with
      | none =>
        if currentStateDiffLen = 0 then pure none
        else throw (.wrongStateDiffLength targetStateDiffLen [currentStateDiffLen])
      | some stateDiffChunk =>
        if stateDiffChunk.isEmpty then throw .emptyStateDiffPart
        else do
          let result ← uniteStateDiffs result stateDiffChunk
          parseStateDiffChunks targetStateDiffLen result currentStateDiffLen
            (currentStateDiffLen + stateDiffChunk.len) responses
    else pure (some (result, prevResultLen, currentStateDiffLen))

/-- `StateDiffStreamBuilder::parse_data_for_block`, given the `state_diff_length` of the block's
header (a missing header panics, and is not modelled). -/
def parseDataForBlock (stateDiffLength : Option Nat) (blockNumber : BlockNumber)
    (responses : List (Option StateDiffChunk)) :
    Except P2PSyncClientError (Option (ThinStateDiff × BlockNumber)) := do
  let targetStateDiffLen ← match stateDiffLength with
    | some n => pure n
    | none => throw (.oldHeaderInStorage blockNumber "state_diff_length")
  match ← parseStateDiffChunks targetStateDiffLen ThinStateDiff.default 0 0 responses with
  | none => pure none
  | some (result, prevResultLen, currentStateDiffLen) =>
    if currentStateDiffLen ≠ targetStateDiffLen then
      throw (.wrongStateDiffLength targetStateDiffLen [prevResultLen, currentStateDiffLen])
    validateDeprecatedDeclaredClassesNonConflicting result
    pure (some (result, blockNumber))

/-! ## 4. What the client accepts

Each chunk the client unites adds its own length to the diff, since a conflict is an error; so
the loop's running length is the length of the diff read, and a diff the client accepts has the
header's length.  No chunk writes a replaced class. -/

section Unite

variable {κ ν : Type} [DecidableEq κ]

theorem insertOrConflict_eq_ok {m m' : IndexMap κ ν} {k : κ} {v : ν}
    (h : insertOrConflict m k v = .ok m') : m.get k = none ∧ m' = (m.insert k v).2 := by
  unfold insertOrConflict at h
  rw [← IndexMap.insert_fst m k v]
  cases hi : m.insert k v with
  | mk old m'' =>
    rw [hi] at h
    cases old with
    | some o => simp [throw, throwThe, MonadExceptOf.throw] at h
    | none =>
      simp only [Option.isSome_none, Bool.false_eq_true, if_false, pure_eq_ok] at h
      exact ⟨rfl, h.symm⟩

theorem insertOrConflict_len {m m' : IndexMap κ ν} {k : κ} {v : ν}
    (h : insertOrConflict m k v = .ok m') : m'.len = m.len + 1 := by
  obtain ⟨hk, rfl⟩ := insertOrConflict_eq_ok h
  exact IndexMap.len_insert_of_get_eq_none v hk

theorem foldlM_insertOrConflict_len :
    ∀ (l : List (κ × ν)) (m m' : IndexMap κ ν),
      l.foldlM (fun m e => insertOrConflict m e.1 e.2) m = .ok m' → m'.len = m.len + l.length
  | [], m, m', h => by
    cases h
    rfl
  | e :: l, m, m', h => by
    rw [List.foldlM_cons, bind_eq_ok] at h
    obtain ⟨m₁, h₁, h₂⟩ := h
    rw [foldlM_insertOrConflict_len l m₁ m' h₂, insertOrConflict_len h₁, List.length_cons]
    omega

end Unite

theorem foldl_add_eq_sum {β : Type} (g : β → Nat) (l : List β) (n : Nat) :
    l.foldl (fun result e => result + g e) n = n + (l.map g).sum := by
  induction l generalizing n with
  | nil => simp
  | cons e l ih =>
    rw [List.foldl_cons, ih, List.map_cons, List.sum_cons]
    omega

/-- **One chunk**: a chunk the client unites adds its length to the diff, and leaves the
replaced classes alone. -/
theorem uniteStateDiffs_len {r r' : ThinStateDiff} {chunk : StateDiffChunk}
    (h : uniteStateDiffs r chunk = .ok r') :
    r'.len = r.len + chunk.len ∧ r'.replacedClasses = r.replacedClasses := by
  cases chunk with
  | contractDiff c =>
    simp only [uniteStateDiffs, bind_eq_ok, pure_eq_ok] at h
    obtain ⟨dt, h₁, nt, h₂, sd, h₃, rfl⟩ := h
    have hdt : dt.len = r.deployedContracts.len + (if c.classHash.isSome then 1 else 0) := by
      cases hc : c.classHash <;> simp only [hc, pure_eq_ok] at h₁
      · simp [h₁]
      · simp [insertOrConflict_len h₁]
    have hnt : nt.len = r.nonces.len + (if c.nonce.isSome then 1 else 0) := by
      cases hc : c.nonce <;> simp only [hc, pure_eq_ok] at h₂
      · simp [h₂]
      · simp [insertOrConflict_len h₂]
    -- the contract's storage map is new, or extended by the chunk's cells
    have hsd : (sd.entries.map fun e => e.2.len).sum =
        (r.storageDiffs.entries.map fun e => e.2.len).sum + c.storageDiffs.len := by
      have hsum := IndexMap.sum_insert (fun m => m.len) r.storageDiffs c.contractAddress
      by_cases he : c.storageDiffs.isEmpty
      · simp only [he, Bool.not_true, Bool.false_eq_true, if_false, pure_eq_ok] at h₃
        have hzero : c.storageDiffs.len = 0 := by
          simpa [IndexMap.len, IndexMap.isEmpty] using he
        rw [← h₃, hzero, Nat.add_zero]
      · simp only [he, Bool.not_false, if_true] at h₃
        cases hg : r.storageDiffs.get c.contractAddress with
        | none =>
          simp only [hg, pure_eq_ok] at h₃
          have := hsum c.storageDiffs
          simp only [hg, Option.map_none, Option.getD_none, Nat.add_zero] at this
          rw [← h₃, this]
        | some sds =>
          simp only [hg, bind_eq_ok, pure_eq_ok] at h₃
          obtain ⟨sds', hfold, rfl⟩ := h₃
          have hlen : sds'.len = sds.len + c.storageDiffs.len :=
            foldlM_insertOrConflict_len _ _ _ hfold
          have := hsum sds'
          simp only [hg, Option.map_some, Option.getD_some] at this
          omega
    refine ⟨?_, rfl⟩
    simp only [ThinStateDiff.len, StateDiffChunk.len, foldl_add_eq_sum] at hsd ⊢
    omega
  | declaredClass classHash compiledClassHash =>
    simp only [uniteStateDiffs, bind_eq_ok, pure_eq_ok] at h
    obtain ⟨dc, h₁, rfl⟩ := h
    refine ⟨?_, rfl⟩
    simp only [ThinStateDiff.len, StateDiffChunk.len, insertOrConflict_len h₁]
    omega
  | deprecatedDeclaredClass classHash =>
    simp only [uniteStateDiffs, pure_eq_ok] at h
    subst h
    refine ⟨?_, rfl⟩
    simp only [ThinStateDiff.len, StateDiffChunk.len, List.length_append, List.length_singleton]
    omega

/-- **The loop**: its running length stays the length of the diff read. -/
theorem parseStateDiffChunks_len {targetStateDiffLen : Nat} :
    ∀ {responses : List (Option StateDiffChunk)} {result d : ThinStateDiff}
      {prevResultLen currentStateDiffLen p c : Nat},
      parseStateDiffChunks targetStateDiffLen result prevResultLen currentStateDiffLen responses =
        .ok (some (d, p, c)) →
      result.len = currentStateDiffLen →
      d.len = c ∧ d.replacedClasses = result.replacedClasses := by
  intro responses
  induction responses with
  | nil =>
    intro result d prevResultLen currentStateDiffLen p c h hlen
    by_cases hlt : currentStateDiffLen < targetStateDiffLen
    · simp [parseStateDiffChunks, hlt, throw, throwThe, MonadExceptOf.throw] at h
    · simp only [parseStateDiffChunks, hlt, if_false, pure_eq_ok, Option.some.injEq,
        Prod.mk.injEq] at h
      obtain ⟨rfl, -, rfl⟩ := h
      exact ⟨hlen, rfl⟩
  | cons response responses ih =>
    intro result d prevResultLen currentStateDiffLen p c h hlen
    by_cases hlt : currentStateDiffLen < targetStateDiffLen
    · cases response with
      | none =>
        -- `Fin` before the target: nothing, or a wrong length
        by_cases h0 : currentStateDiffLen = 0
        · subst h0
          simp [parseStateDiffChunks, hlt, pure, Except.pure] at h
        · simp [parseStateDiffChunks, hlt, h0, throw, throwThe, MonadExceptOf.throw] at h
      | some chunk =>
        by_cases he : chunk.isEmpty
        · simp [parseStateDiffChunks, hlt, he, throw, throwThe, MonadExceptOf.throw] at h
        · simp only [parseStateDiffChunks, hlt, he, if_true, Bool.false_eq_true, if_false,
            bind_eq_ok] at h
          obtain ⟨result', hunite, hrest⟩ := h
          obtain ⟨hlen', hreplaced⟩ := uniteStateDiffs_len hunite
          obtain ⟨hd, hreplaced'⟩ := ih hrest (by rw [hlen', hlen])
          exact ⟨hd, hreplaced'.trans hreplaced⟩
    · simp only [parseStateDiffChunks, hlt, if_false, pure_eq_ok, Option.some.injEq,
        Prod.mk.injEq] at h
      obtain ⟨rfl, -, rfl⟩ := h
      exact ⟨hlen, rfl⟩

theorem nodup_of_length_dedup {β : Type} [DecidableEq β] {l : List β}
    (h : l.length = l.dedup.length) : l.Nodup := by
  have heq : l.dedup = l := (List.dedup_sublist l).eq_of_length h.symm
  rw [← heq]
  exact List.nodup_dedup l

/-- **A diff the client accepts** has the length the header announces, no replaced classes and
no deprecated class twice, and is for the block asked for. -/
theorem parseDataForBlock_ok {stateDiffLength : Option Nat} {blockNumber : BlockNumber}
    {responses : List (Option StateDiffChunk)} {d : ThinStateDiff} {n : BlockNumber}
    (h : parseDataForBlock stateDiffLength blockNumber responses = .ok (some (d, n))) :
    stateDiffLength = some d.len ∧ n = blockNumber ∧ d.replacedClasses.entries = [] ∧
      d.deprecatedDeclaredClasses.Nodup := by
  cases stateDiffLength with
  | none => simp [parseDataForBlock, throw, throwThe, MonadExceptOf.throw, bind, Except.bind] at h
  | some target =>
    simp only [parseDataForBlock, pure, Except.pure, bind_eq_ok, Except.ok.injEq,
      exists_eq_left'] at h
    obtain ⟨r, hp, h⟩ := h
    rcases r with _ | ⟨result, p, c⟩
    · simp at h
    · by_cases hct : c = target
      · subst hct
        simp only [ne_eq, not_true_eq_false, if_false, bind_eq_ok, Except.ok.injEq,
          Option.some.injEq, Prod.mk.injEq] at h
        obtain ⟨⟨⟩, hv, rfl, rfl⟩ := h
        obtain ⟨hlen, hreplaced⟩ := parseStateDiffChunks_len hp rfl
        refine ⟨by rw [hlen], rfl, by rw [hreplaced]; rfl, ?_⟩
        unfold validateDeprecatedDeclaredClassesNonConflicting at hv
        split_ifs at hv with hdup
        exact nodup_of_length_dedup hdup
      · simp [hct, throw, throwThe, MonadExceptOf.throw, bind, Except.bind] at h

/-! ## 5. A transfer that changes a nonce -/

/-- Block 0 deploys contract 1 with class 7 and sets its nonce to 5; block 1 replaces its class
by 8.  Server and client agree on block 0; the client receives the chunks of block 1 and `Fin`,
parses a diff that deploys contract 1 with class 8, and appends it, which writes the default
nonce.  At state 2 the server's nonce of contract 1 is 5 and the client's is 0. -/
theorem transfer_resets_nonce_of_replaced_class :
    let d0 : ThinStateDiff := ⟨⟨[(1, 7)], by decide⟩, IndexMap.empty, IndexMap.empty, [],
      ⟨[(1, 5)], by decide⟩, IndexMap.empty⟩
    let d1 : ThinStateDiff := ⟨IndexMap.empty, IndexMap.empty, IndexMap.empty, [],
      IndexMap.empty, ⟨[(1, 8)], by decide⟩⟩
    (do
      let server ← (appendStateDiffs StateStorage.empty 0 [d0, d1]).toOption
      let client ← (appendStateDiff StateStorage.empty 0 d0).toOption
      let (received, n) ←
        (← (parseDataForBlock (some d1.len) 1 ((splitThinStateDiff d1).map some ++ [none])).toOption)
      let client ← (appendStateDiff client n received).toOption
      pure (received.deployedContracts.entries, server.getNonceAt 2 1, client.getNonceAt 2 1)) =
      some ([(1, 8)], some 5, some 0) := by
  dsimp only
  decide

end Sequencer.P2pSync
