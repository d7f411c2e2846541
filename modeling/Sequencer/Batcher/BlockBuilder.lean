/-
# The block builder: chunks of the input stream into a block

`BlockBuilder::build_block` takes chunks of transactions from the input stream until the deadline,
hands each chunk to the executor's `add_txs_to_block`, and passes the results to
`collect_execution_results_and_stream_txs`, which streams every executed transaction out, records
its execution info, and tells the loop to close the block when it meets `Err(BlockFull)`.

The executor behind it is `TransactionExecutor`, whose `execute_txs` never returns
`Err(BlockFull)`: it reports a full block only by returning fewer results than transactions
(`executeTxs_ne_blockFull`).  The zip in `collect_execution_results_and_stream_txs` drops the
transactions past the results without a word, so the builder never sets `should_close_block`: it
takes every chunk the stream yields until the deadline (`buildBlockLoop_untaken`), and a
transaction the bouncer refused is neither in the block nor reported.
`buildBlock_takes_chunk_after_block_full` runs it on two chunks.

The stream is the list of what `time::timeout(time_to_deadline, chunk_stream.next())` yields, in
order: a chunk, the deadline, or the end of the stream.
-/
import Sequencer.Blockifier.TransactionExecutor
import Sequencer.Lib.Collections

namespace Sequencer.Batcher

open Sequencer.Blockifier

variable {σ Tx ι : Type}

/-! ## 1. The builder's loop -/

abbrev TransactionHash := Nat

/-- What `time::timeout(time_to_deadline, chunk_stream.next())` gives the loop. -/
inductive NextTxChunk (Tx : Type)
  /-- `Ok(Some(tx_chunk))`. -/
  | chunk (txChunk : List Tx)
  /-- `Err(_)`: the deadline passed first. -/
  | timeout
  /-- `Ok(None)`: the input stream was closed. -/
  | terminated
  deriving DecidableEq, Repr

/-- Whether the loop takes it as a chunk to execute. -/
def NextTxChunk.isChunk : NextTxChunk Tx → Bool
  | .chunk _ => true
  | _ => false

/-- `BlockBuilderError`, of which the loop raises one. -/
inductive BlockBuilderError
  | inputStreamTerminated
  deriving DecidableEq, Repr

/-- `BlockExecutionArtifacts`: the execution infos by transaction hash, and the block's weights. -/
structure BlockExecutionArtifacts (ι : Type) where
  executionInfos : IndexMap TransactionHash ι
  bouncerWeights : BouncerWeights

/-- A run of `build_block`: its result, the transactions it sent on `output_content_sender` in
order, and what it left in the stream. -/
structure BuildBlockRun (Tx ι : Type) where
  result : Except BlockBuilderError (BlockExecutionArtifacts ι)
  sent : List Tx
  untaken : List (NextTxChunk Tx)

variable (txHash : Tx → TransactionHash)

/-- The `for` loop of `collect_execution_results_and_stream_txs` over the zipped chunk and
results: whether it met `BlockFull`, the execution infos and the transactions sent. -/
def collectExecutionResultsAndStreamTxs.loop :
    List (Tx × Except TransactionExecutorError ι) → IndexMap TransactionHash ι → List Tx →
      Bool × IndexMap TransactionHash ι × List Tx
  | [], executionInfos, sent => (false, executionInfos, sent)
  | (inputTx, .ok txExecutionInfo) :: rest, executionInfos, sent =>
    loop rest (executionInfos.insert (txHash inputTx) txExecutionInfo).2 (sent ++ [inputTx])
  | (_, .error .blockFull) :: _, executionInfos, sent => (true, executionInfos, sent)
  | (_, .error _) :: rest, executionInfos, sent => loop rest executionInfos sent

/-- `collect_execution_results_and_stream_txs`: true if the block is full and should be closed. -/
def collectExecutionResultsAndStreamTxs (txChunk : List Tx)
    (results : List (Except TransactionExecutorError ι)) (executionInfos : IndexMap TransactionHash ι)
    (sent : List Tx) : Bool × IndexMap TransactionHash ι × List Tx :=
  collectExecutionResultsAndStreamTxs.loop txHash (txChunk.zip results) executionInfos sent

variable (executeRaw : ExecuteRaw σ Tx ι) (executeChunk : ExecuteChunk σ Tx ι)

/-- `TransactionExecutorTrait::add_txs_to_block` of `TransactionExecutor`. -/
def addTxsToBlock (executor : TransactionExecutor σ) (txs : List Tx) :
    List (Except TransactionExecutorError ι) × TransactionExecutor σ :=
  executor.executeTxs executeRaw executeChunk txs

/-- After the loop: `close_block`, whose weights are the bouncer's accumulated weights. -/
def closeBlock (executor : TransactionExecutor σ) (executionInfos : IndexMap TransactionHash ι)
    (sent : List Tx) (untaken : List (NextTxChunk Tx)) : BuildBlockRun Tx ι :=
  ⟨.ok ⟨executionInfos, executor.bouncer.accumulatedWeights⟩, sent, untaken⟩

/-- The `while !should_close_block && now < deadline` loop of `build_block`. -/
def buildBlockLoop :
    Bool → TransactionExecutor σ → IndexMap TransactionHash ι → List Tx → List (NextTxChunk Tx) →
      BuildBlockRun Tx ι
  | true, executor, executionInfos, sent, stream => closeBlock executor executionInfos sent stream
  -- the deadline is reached
  | false, executor, executionInfos, sent, [] => closeBlock executor executionInfos sent []
  | false, executor, executionInfos, sent, .timeout :: rest =>
    closeBlock executor executionInfos sent rest
  | false, _, _, sent, .terminated :: rest => ⟨.error .inputStreamTerminated, sent, rest⟩
  | false, executor, executionInfos, sent, .chunk txChunk :: rest =>
    let r := addTxsToBlock executeRaw executeChunk executor txChunk
    let c := collectExecutionResultsAndStreamTxs txHash txChunk r.1 executionInfos sent
    buildBlockLoop c.1 r.2 c.2.1 c.2.2 rest

/-- `build_block`. -/
def buildBlock (executor : TransactionExecutor σ) (stream : List (NextTxChunk Tx)) :
    BuildBlockRun Tx ι :=
  buildBlockLoop txHash executeRaw executeChunk false executor IndexMap.empty [] stream

/-! ## 2. The builder never closes a full block -/

/-- Without `Err(BlockFull)` among the results, the loop never asks to close the block. -/
theorem collectExecutionResultsAndStreamTxs.loop_fst :
    ∀ (pairs : List (Tx × Except TransactionExecutorError ι))
      (executionInfos : IndexMap TransactionHash ι) (sent : List Tx),
      (∀ p ∈ pairs, p.2 ≠ .error .blockFull) → (loop txHash pairs executionInfos sent).1 = false
  | [], _, _, _ => rfl
  | (_, .ok _) :: rest, _, _, hpairs =>
    loop_fst rest _ _ fun p hp => hpairs p (List.mem_cons_of_mem _ hp)
  | (_, .error .blockFull) :: _, _, _, hpairs => absurd rfl (hpairs _ List.mem_cons_self)
  | (_, .error .stateError) :: rest, _, _, hpairs =>
    loop_fst rest _ _ fun p hp => hpairs p (List.mem_cons_of_mem _ hp)
  | (_, .error (.transactionExecutionError _)) :: rest, _, _, hpairs =>
    loop_fst rest _ _ fun p hp => hpairs p (List.mem_cons_of_mem _ hp)

theorem collectExecutionResultsAndStreamTxs_fst (txChunk : List Tx)
    {results : List (Except TransactionExecutorError ι)} (executionInfos : IndexMap TransactionHash ι)
    (sent : List Tx) (hresults : ∀ r ∈ results, r ≠ .error .blockFull) :
    (collectExecutionResultsAndStreamTxs txHash txChunk results executionInfos sent).1 = false :=
  collectExecutionResultsAndStreamTxs.loop_fst txHash _ executionInfos sent
    fun p hp => hresults p.2 (List.of_mem_zip hp).2

/-- **The builder takes every chunk until the deadline or the end of the stream**: it leaves in
the stream exactly what follows the first event that is not a chunk, whatever the executor
committed of each chunk. -/
theorem buildBlockLoop_untaken :
    ∀ (executor : TransactionExecutor σ) (executionInfos : IndexMap TransactionHash ι)
      (sent : List Tx) (stream : List (NextTxChunk Tx)),
      (buildBlockLoop txHash executeRaw executeChunk false executor executionInfos sent
        stream).untaken = (stream.dropWhile NextTxChunk.isChunk).drop 1
  | _, _, _, [] => rfl
  | _, _, _, .timeout :: _ => rfl
  | _, _, _, .terminated :: _ => rfl
  | executor, executionInfos, sent, .chunk txChunk :: rest => by
    have hfull := collectExecutionResultsAndStreamTxs_fst txHash txChunk executionInfos sent
      fun _ hr => executor.executeTxs_ne_blockFull executeRaw executeChunk txChunk hr
    unfold buildBlockLoop
    dsimp only
    rw [addTxsToBlock, hfull, List.dropWhile_cons_of_pos rfl]
    exact buildBlockLoop_untaken _ _ _ rest

/-! ## 3. A refused transaction, and the chunk after it -/

/-- Every transaction succeeds and takes as many steps as its hash; the block state lists the
committed transactions. -/
def stepsExecuteRaw : ExecuteRaw (List Nat) Nat Nat := fun s tx =>
  .ok ⟨tx, s ++ [tx], some StateChangesKeys.empty, fun _ => none, ⟨∅, ∅⟩,
    ⟨0, 0, 0, fun f => if f = .nSteps then tx else 0⟩⟩

/-- A sequential executor on an empty block of ten steps. -/
def tenStepsExecutor : TransactionExecutor (List Nat) :=
  .new [] ⟨fun w => if w = .nSteps then 10 else 0⟩ ⟨⟨false, 0, 0, nofun⟩⟩

/-- The builder on a chunk of transactions of six and five steps, then a chunk of one of three. -/
def twoChunkRun : BuildBlockRun Nat Nat :=
  buildBlock id stepsExecuteRaw (fun executor _ => ([], executor)) tenStepsExecutor
    [.chunk [6, 5], .chunk [3]]

/-- The executor commits only the first transaction of the first chunk (the block is full), yet
the builder takes the second chunk and puts its transaction into the block; the refused
transaction is neither sent nor in the execution infos, and the run ends without an error. -/
theorem buildBlock_takes_chunk_after_block_full :
    (addTxsToBlock stepsExecuteRaw (fun executor _ => ([], executor)) tenStepsExecutor
        [6, 5]).1.length < [6, 5].length ∧
      twoChunkRun.untaken = [] ∧ twoChunkRun.sent = [6, 3] ∧
      (twoChunkRun.result.toOption.map fun a => a.executionInfos.keys) = some [6, 3] := by
  decide

end Sequencer.Batcher
