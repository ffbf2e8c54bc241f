/-
  The `DistributedTxExecutor` of the writeback design
  (`worker/src/writeback_batch_executor.rs`) and its messages
  (`worker/src/writeback_state_helper.rs`).

  The partition of the accounts is fixed. A payment between two executors is enqueued at
  both; the one of the source account sends its state, the one of the destination account
  executes the payment and sends the new state of the source account back.

  `executed` logs the calls of `execute_single_local_transaction` and the transfers that are
  processed, `writtenBack` the writebacks. The lock statistics, the timestamps of outgoing
  states, the buffer of batches that come too early and the feedback are left out. The maps
  that are not iterated over are functions to `Option`.
-/
import DagBft.Writeback.Router

namespace DagBft.Writeback

open Worker Fusion

/-! ## Messages -/

structure StateWritebackArrival where
  txId : TxID
  srcAccountId : ℕ
  accountState : AccountState
  success : Bool
deriving DecidableEq

/-- Request from an executor to send a `StateWriteback` to a remote executor. -/
structure StateWritebackRequest where
  stateWriteback : StateWritebackArrival
  srcExecutorId : ℕ
deriving DecidableEq

abbrev TransferBuffer := AList fun _ : TxID => StateTransfer

abbrev WritebackBuffer := AList fun _ : TxID => StateWritebackArrival

/-! ## The executor -/

/-- Transaction waiting for locked accounts to become available. -/
structure PendingTransaction where
  txBytes : Bytes
  txHeader : TransactionHeader
  sbTx : SmallBankTransaction
  batchDigest : Bytes
  requiredAccounts : List ℕ
  locality : TransactionLocality
deriving DecidableEq

abbrev PendingQueues := ℕ → Option (List PendingTransaction)

/-- The orders in which one call iterates over hash maps and hash sets. -/
structure Iteration where
  /-- The ids of the buffered transfers or writebacks. -/
  txIds : List TxID → List TxID
  /-- The position of the `i`-th element taken from the worklist. -/
  picks : ℕ → ℕ
  /-- A bound on the iterations of the loops of `drain_pending_queues`. -/
  fuel : ℕ
  txIds_perm : ∀ l, (txIds l).Perm l

structure Executor where
  executorId : ℕ
  statesPartition : Partition
  accountStore : AccountStore
  /-- Tracks which transaction currently holds each account lock. -/
  accountLocks : ℕ → Option TxID
  /-- Per-account pending queues for transactions waiting on locked accounts. -/
  pendingQueues : PendingQueues
  localTransfers : TransferBuffer
  localWritebacks : WritebackBuffer
  /-- The account of the destination of a payment from another executor. -/
  distributedDestAccounts : TxID → Option ℕ
  txSendState : List StateTransferRequest
  txStateWriteback : List StateWritebackRequest
  /-- Outgoing states awaiting writeback (source side). -/
  outgoingStatesBuffer : TxID → Option StateTransferRequest
  incomingTransfers : TransferBuffer
  incomingWritebacks : WritebackBuffer
  txClientReply : List ClientReplyRequest
  executed : List TxID
  writtenBack : List TxID

namespace Executor

/-! ### The pending queues and the locks -/

/-- The account is not locked by another transaction, and no other one is ahead of this one
    in its queue. -/
def isAccountReady (s : Executor) (account : ℕ) (txId : TxID) : Bool :=
  (match s.accountLocks account with
    | some owner => owner = txId
    | none => true) &&
  match s.pendingQueues account with
  | some (head :: _) => head.txHeader.id = txId
  | _ => true

/-- Checks if a transaction is ready to execute. -/
def isReadyToExecute (s : Executor) (txId : TxID) (accounts : List ℕ) : Bool :=
  accounts.all fun account => s.isAccountReady account txId

/-- The first loop of `remove_from_all_queues`. -/
def popLoop (txId : TxID) : List ℕ → PendingQueues → Option PendingTransaction →
    Except Panic (PendingQueues × Option PendingTransaction)
  | [], queues, pending => .ok (queues, pending)
  | account :: accounts, queues, pending =>
      match queues account with
      | some (tx :: queue) =>
          if tx.txHeader.id = txId then
            popLoop txId accounts (Function.update queues account (some queue))
              (pending.or (some tx))
          else .error .mismatch
      | _ => .error .noQueue

/-- Remove the queues of these accounts that are empty. -/
def removeEmpty (queues : PendingQueues) (accounts : List ℕ) : PendingQueues :=
  fun a => if a ∈ accounts ∧ queues a = some [] then none else queues a

/-- Removes a transaction from all queues it's in. -/
def removeFromAllQueues (s : Executor) (accounts : List ℕ) (txId : TxID) :
    Except Panic (PendingTransaction × Executor) := do
  let (queues, pending) ← popLoop txId accounts s.pendingQueues none
  match pending with
  | some tx => .ok (tx, { s with pendingQueues := removeEmpty queues accounts })
  | none => .error .noAccounts

/-- `account_locks.remove` for each of the accounts. -/
def unlock (s : Executor) (accounts : List ℕ) : Executor :=
  { s with accountLocks := fun a => if a ∈ accounts then none else s.accountLocks a }

/-- Pops the head of the queue of an account that is not empty, and unlocks the account. -/
def popAndUnlock (s : Executor) (account : ℕ) (queue : List PendingTransaction) : Executor :=
  { s.unlock [account] with
    pendingQueues := removeEmpty (Function.update s.pendingQueues account (some queue)) [account] }

/-- Enqueues the transaction on the accounts and takes their locks. -/
def enqueue (pending : PendingTransaction) : List ℕ → Executor → Executor
  | [], s => s
  | account :: accounts, s =>
      enqueue pending accounts { s with
        pendingQueues := Function.update s.pendingQueues account
          (some ((s.pendingQueues account).getD [] ++ [pending]))
        accountLocks := Function.update s.accountLocks account (some pending.txHeader.id) }

/-- The accounts that a transaction is enqueued on. -/
def localAccounts (requiredAccounts : List ℕ) : TransactionLocality → List ℕ
  | .local => requiredAccounts
  | .distributedSource srcAccount _ => [srcAccount]
  | .distributedDest destAccount _ => [destAccount]

def lockAndEnqueueTransaction (s : Executor) (digest txBytes : Bytes) (header : TransactionHeader)
    (requiredAccounts : List ℕ) (locality : TransactionLocality) : Except Panic Executor :=
  match parseSmallbankPayload txBytes with
  | none => .error .payload
  | some sbTx =>
      let pending : PendingTransaction :=
        ⟨txBytes, header, sbTx, digest, requiredAccounts, locality⟩
      -- Populate reverse lookup for DistributedDest transactions
      let distributedDestAccounts := match locality with
        | .distributedDest destAccount _ =>
            Function.update s.distributedDestAccounts header.id (some destAccount)
        | _ => s.distributedDestAccounts
      .ok (enqueue pending (localAccounts requiredAccounts locality)
        { s with distributedDestAccounts := distributedDestAccounts })

/-! ### Execution -/

def updateAccount (store : AccountStore) (account : ℕ)
    (f : AccountState → AccountState × Bool) : Except Panic (AccountStore × Bool) :=
  match store.update account f with
  | some r => .ok r
  | none => .error .accountNotFound

/-- The effect of a transaction on the store, whether it succeeds, and the state of its
    account that the client is told. -/
def executeSmallBank (store : AccountStore) (sbTx : SmallBankTransaction) :
    Except Panic (AccountStore × Bool × Option AccountState) :=
  let single (f : AccountState → AccountState × Bool) := do
    let (store, success) ← updateAccount store sbTx.accountId f
    .ok (store, success, store sbTx.accountId)
  match sbTx.txType with
  | .balance => single fun account => (account, true)
  | .depositChecking => single (·.executeDepositChecking sbTx.amount)
  | .transactSavings => single (·.executeTransactSavings sbTx.amount)
  | .writeCheck => single (·.executeWriteCheck sbTx.amount)
  | .sendPayment => do
      let (store, success, accountState) ← single (·.executeSendPaymentDebit sbTx.amount)
      if success then
        let (store, _) ← updateAccount store sbTx.destAccountId fun account =>
          (account.executeSendPaymentCredit sbTx.amount, true)
        .ok (store, true, accountState)
      else .ok (store, false, accountState)

/-- Sends the client reply, if the client has an address. -/
def reply (clientReplyAddress : ℕ → Option SocketAddr) (s : Executor) (digest : Bytes)
    (header : TransactionHeader) (success : Bool) (accountId : ℕ)
    (accountState : Option AccountState) : Executor :=
  match clientReplyAddress header.id.regionId with
  | none => s
  | some clientAddr =>
      let request : ClientReplyRequest :=
        ⟨digest, clientAddr, header.txType, header.id, success, accountId, accountState⟩
      { s with txClientReply := s.txClientReply ++ [request] }

/-- Executes a single transaction. -/
def executeSingleLocalTransaction (clientReplyAddress : ℕ → Option SocketAddr) (s : Executor)
    (digest txBytes : Bytes) (header : TransactionHeader) : Except Panic Executor :=
  let s := { s with executed := s.executed ++ [header.id] }
  match parseSmallbankPayload txBytes with
  | none => .ok (s.reply clientReplyAddress digest header true 0 none)
  | some sbTx => do
      let (store, success, accountState) ← executeSmallBank s.accountStore sbTx
      .ok (reply clientReplyAddress { s with accountStore := store } digest header success
        sbTx.accountId accountState)

/-- Sends StateTransfer request for a distributed source transaction. -/
def sendStateTransferForTx (s : Executor) (pending : PendingTransaction)
    (srcAccount destExecutorId : ℕ) : Except Panic Executor :=
  match s.accountStore srcAccount with
  | none => .error .accountNotFound
  | some srcAccountState =>
      let request : StateTransferRequest :=
        ⟨⟨pending.txHeader.id, srcAccount, srcAccountState⟩, destExecutorId⟩
      .ok { s with
        outgoingStatesBuffer :=
          Function.update s.outgoingStatesBuffer pending.txHeader.id (some request)
        txSendState := s.txSendState ++ [request] }

/-! ### Draining the queues -/

/-- The inner loop of `drain_pending_queues`, for one account. -/
def drainAccount (clientReplyAddress : ℕ → Option SocketAddr) (account : ℕ) :
    ℕ → List ℕ → Executor → Except Panic (List ℕ × Executor)
  | 0, _, _ => .error .fuel
  | fuel + 1, workSet, s =>
      match s.pendingQueues account with
      | some (head :: _) =>
          match head.locality with
          | .distributedSource srcAccount destExecutorId =>
              if (s.outgoingStatesBuffer head.txHeader.id).isSome then
                .ok (workSet, s)
              else do
                let s ← s.sendStateTransferForTx head srcAccount destExecutorId
                -- Always break - wait for writeback
                .ok (workSet, s)
          | .distributedDest _ _ => .ok (workSet, s)
          | .local =>
              if s.isReadyToExecute head.txHeader.id head.requiredAccounts then do
                let (pending, s) ← s.removeFromAllQueues head.requiredAccounts head.txHeader.id
                let s ← s.executeSingleLocalTransaction clientReplyAddress pending.batchDigest
                  pending.txBytes pending.txHeader
                drainAccount clientReplyAddress account fuel
                  (Fusion.Executor.extendSet workSet pending.requiredAccounts)
                  (s.unlock pending.requiredAccounts)
              else
                -- Still locked or blocked by other queues, cannot execute yet
                .ok (workSet, s)
      | _ => .ok (workSet, s)

/-- Iteratively drains pending queues for unlocked accounts. `i` counts the accounts taken
    from the worklist. -/
def drainPendingQueues (clientReplyAddress : ℕ → Option SocketAddr) (iter : Iteration) :
    ℕ → ℕ → List ℕ → Executor → Except Panic Executor
  | _, _, [], s => .ok s
  | 0, _, _ :: _, _ => .error .fuel
  | fuel + 1, i, account :: workSet, s => do
      let next := (account :: workSet).getD (iter.picks i % (workSet.length + 1)) account
      let (workSet, s) ← drainAccount clientReplyAddress next iter.fuel
        ((account :: workSet).erase next) s
      drainPendingQueues clientReplyAddress iter fuel (i + 1) workSet s

/-! ### Incoming transfers and writebacks -/

/-- One iteration of the loop of `process_incoming_transfers`, for the accounts unlocked so
    far. -/
def processTransfer (clientReplyAddress : ℕ → Option SocketAddr) (txId : TxID)
    (unlockedAccounts : List ℕ) (s : Executor) : Except Panic (List ℕ × Executor) :=
  match s.distributedDestAccounts txId with
  -- Not yet enqueued
  | none => .ok (unlockedAccounts, s)
  | some destAccount =>
      match s.pendingQueues destAccount with
      | some (head :: queue) =>
          if head.txHeader.id ≠ txId then
            -- Not at head yet, leave in local_transfers
            .ok (unlockedAccounts, s)
          else
            match s.localTransfers.lookup txId, head.locality with
            | some stateTransfer, .distributedDest _ srcExecutorId => do
                let amount := head.sbTx.amount
                let srcState := stateTransfer.srcAccountState
                -- Check src balance using transferred state (read-only)
                let success : Bool := amount.toInt64 ≤ srcState.checkingBalance
                let updatedSrcState := if success then
                  { srcState with
                    checkingBalance := srcState.checkingBalance - amount.toInt64 }
                else srcState
                let (store, _) ← if success then
                    -- Credit dest account (local write)
                    updateAccount s.accountStore destAccount fun account =>
                      (account.executeSendPaymentCredit amount, true)
                  else .ok (s.accountStore, false)
                let request : StateWritebackRequest :=
                  ⟨⟨txId, stateTransfer.srcAccountId, updatedSrcState, success⟩, srcExecutorId⟩
                let s := reply clientReplyAddress { s with accountStore := store }
                  head.batchDigest head.txHeader success stateTransfer.srcAccountId
                  (some updatedSrcState)
                let s := { s with
                  executed := s.executed ++ [txId]
                  localTransfers := s.localTransfers.erase txId
                  txStateWriteback := s.txStateWriteback ++ [request]
                  distributedDestAccounts :=
                    Function.update s.distributedDestAccounts txId none }
                .ok (Fusion.Executor.extendSet unlockedAccounts [destAccount],
                  s.popAndUnlock destAccount queue)
            | _, _ => .error .unreachable
      | _ => .ok (unlockedAccounts, s)

/-- One iteration of the loop of `process_incoming_writebacks`. -/
def processWriteback (txId : TxID) (unlockedAccounts : List ℕ) (s : Executor) :
    Except Panic (List ℕ × Executor) :=
  match s.localWritebacks.lookup txId with
  | none => .error .unreachable
  | some writeback =>
      match s.pendingQueues writeback.srcAccountId with
      | some (head :: queue) =>
          if head.txHeader.id ≠ txId then
            -- Not at head yet, leave in local_writebacks
            .ok (unlockedAccounts, s)
          else
            let s := { s with
              writtenBack := s.writtenBack ++ [txId]
              localWritebacks := s.localWritebacks.erase txId
              -- Update account_store with writeback state
              accountStore := if (s.accountStore writeback.srcAccountId).isSome then
                  Function.update s.accountStore writeback.srcAccountId
                    (some writeback.accountState)
                else s.accountStore
              outgoingStatesBuffer := Function.update s.outgoingStatesBuffer txId none }
            .ok (Fusion.Executor.extendSet unlockedAccounts [writeback.srcAccountId],
              s.popAndUnlock writeback.srcAccountId queue)
      | _ => .ok (unlockedAccounts, s)

/-- `for tx_id in tx_ids`. -/
def forEach (body : TxID → List ℕ → Executor → Except Panic (List ℕ × Executor)) :
    List TxID → List ℕ → Executor → Except Panic (List ℕ × Executor)
  | [], unlockedAccounts, s => .ok (unlockedAccounts, s)
  | txId :: txIds, unlockedAccounts, s => do
      let (unlockedAccounts, s) ← body txId unlockedAccounts s
      forEach body txIds unlockedAccounts s

/-- Process incoming StateTransfers (Dest executor side). -/
def processIncomingTransfers (clientReplyAddress : ℕ → Option SocketAddr) (iter : Iteration)
    (s : Executor) : Except Panic Executor := do
  -- Drain shared buffer once into local storage
  let s := { s with
    incomingTransfers := ∅
    localTransfers := s.incomingTransfers ∪ s.localTransfers }
  let (unlockedAccounts, s) ←
    forEach (processTransfer clientReplyAddress) (iter.txIds s.localTransfers.keys) [] s
  drainPendingQueues clientReplyAddress iter iter.fuel 0 unlockedAccounts s

/-- Process incoming StateWritebacks (Source executor side). -/
def processIncomingWritebacks (clientReplyAddress : ℕ → Option SocketAddr) (iter : Iteration)
    (s : Executor) : Except Panic Executor := do
  -- Drain shared buffer once into local storage
  let s := { s with
    incomingWritebacks := ∅
    localWritebacks := s.incomingWritebacks ∪ s.localWritebacks }
  let (unlockedAccounts, s) ←
    forEach processWriteback (iter.txIds s.localWritebacks.keys) [] s
  drainPendingQueues clientReplyAddress iter iter.fuel 0 unlockedAccounts s

/-! ### Batches -/

/-- One iteration of the loop of `execute_batch`. -/
def executeTransaction (clientReplyAddress : ℕ → Option SocketAddr) (digest : Bytes)
    (s : Executor) (txBytes : Bytes) : Except Panic Executor :=
  match TransactionHeader.parse txBytes with
  -- Transaction too short (< 10 bytes), skipping
  | none => .ok s
  | some header => do
      let requiredAccounts ← extractRequiredAccounts txBytes
      let locality ← determineLocality s.executorId s.statesPartition requiredAccounts
      match locality with
      | .local =>
          if s.isReadyToExecute header.id requiredAccounts then
            s.executeSingleLocalTransaction clientReplyAddress digest txBytes header
          else
            s.lockAndEnqueueTransaction digest txBytes header requiredAccounts .local
      | .distributedSource srcAccount destExecutorId => do
          let s ← s.lockAndEnqueueTransaction digest txBytes header requiredAccounts locality
          -- Send StateTransfer IMMEDIATELY if this tx is at queue head (Source side)
          match s.pendingQueues srcAccount with
          | some (head :: _) =>
              if head.txHeader.id = header.id then
                s.sendStateTransferForTx head srcAccount destExecutorId
              else .ok s
          | _ => .ok s
      | .distributedDest _ _ =>
          -- Dest side waits passively for StateTransfer arrival
          s.lockAndEnqueueTransaction digest txBytes header requiredAccounts locality

/-- `execute_batch` up to the processing of what has arrived. -/
def executeTransactions (clientReplyAddress : ℕ → Option SocketAddr) (digest : Bytes)
    (transactions : List Bytes) (s : Executor) : Except Panic Executor :=
  transactions.foldlM (executeTransaction clientReplyAddress digest) s

def executeBatch (clientReplyAddress : ℕ → Option SocketAddr) (iter : Iteration) (digest : Bytes)
    (transactions : List Bytes) (s : Executor) : Except Panic Executor := do
  let s ← executeTransactions clientReplyAddress digest transactions s
  let s ← s.processIncomingWritebacks clientReplyAddress iter
  s.processIncomingTransfers clientReplyAddress iter

end Executor

end DagBft.Writeback
