/-
  The `BatchExecutor` of the data-fusion design (`worker/src/batch_executor.rs`): its
  pending queues, the execution of transactions, the migration of account states and the
  processing of incoming transfers.

  `executed` logs the calls of `execute_single_local_transaction`; its length is
  `executed_tx_count`. The lock statistics, the buffer of batches that come too early and
  the feedback are left out. A queue of no account is absent from the map, so the map of
  queues is a function to `Option`.
-/
import DagBft.Fusion.Schedule

namespace DagBft.Fusion

open Worker

/-- Transaction waiting for locked accounts to become available. -/
structure PendingTransaction where
  txBytes : Bytes
  txHeader : TransactionHeader
  sbTx : SmallBankTransaction
  batchDigest : Bytes
  requiredAccounts : List ℕ
  locality : TransactionLocality
deriving DecidableEq

abbrev PendingQueues := ℕ → Option (List PendingTransaction)

structure Executor where
  executorId : ℕ
  accountStore : AccountStore
  /-- Updated deterministically as each transaction is scheduled. -/
  statesSchedulePartition : Partition
  pendingQueues : PendingQueues
  incomingTransfers : TransferMap
  /-- Local buffer for drained incoming transfers. -/
  drainedIncomingTransfers : TransferMap
  txSendState : List StateTransferRequest
  txClientReply : List ClientReplyRequest
  executed : List TxID

namespace Executor

/-! ## The pending queues -/

/-- No queue, or the transaction is at its head. -/
def isAccountUnlockedOrHead (s : Executor) (account : ℕ) (txId : TxID) : Bool :=
  match s.pendingQueues account with
  | none => true
  | some queue => queue.head?.any fun head => head.txHeader.id = txId

/-- Checks if a transaction is ready to execute. -/
def isReadyToExecute (s : Executor) (txId : TxID) (accounts : List ℕ) : Bool :=
  accounts.all fun account =>
    (s.accountStore account).isSome && s.isAccountUnlockedOrHead account txId

def isEnqueuedAtHead (s : Executor) (account : ℕ) (txId : TxID) : Except Panic Bool :=
  match s.pendingQueues account with
  | some (head :: _) => .ok (head.txHeader.id = txId)
  | _ => .error .noQueue

/-- `required_accounts.iter().all(|acc| self.is_enqueued_at_head(*acc, tx_id))`. -/
def isAtAllHeads (s : Executor) (txId : TxID) : List ℕ → Except Panic Bool
  | [] => .ok true
  | account :: accounts => do
      if ← s.isEnqueuedAtHead account txId then isAtAllHeads s txId accounts else .ok false

/-- The loop of `pop_transaction_from_accounts`. -/
def popLoop (txId : TxID) : List ℕ → PendingQueues → Option PendingTransaction →
    Except Panic (PendingQueues × Option PendingTransaction)
  | [], queues, pending => .ok (queues, pending)
  | account :: accounts, queues, _ =>
      match queues account with
      | some (tx :: queue) =>
          if tx.txHeader.id = txId then
            popLoop txId accounts (Function.update queues account (some queue)) (some tx)
          else .error .mismatch
      | _ => .error .noQueue

/-- Remove the queues of these accounts that are empty. -/
def removeEmpty (queues : PendingQueues) (accounts : List ℕ) : PendingQueues :=
  fun a => if a ∈ accounts ∧ queues a = some [] then none else queues a

/-- Pops a transaction from the head of all specified account queues. -/
def popTransactionFromAccounts (s : Executor) (accounts : List ℕ) (txId : TxID) :
    Except Panic (PendingTransaction × Executor) := do
  let (queues, pending) ← popLoop txId accounts s.pendingQueues none
  match pending with
  | some tx => .ok (tx, { s with pendingQueues := removeEmpty queues accounts })
  | none => .error .noAccounts

/-- `entry(account).or_insert_with(VecDeque::new).push_back(tx)` for each of the accounts. -/
def pushBack (tx : PendingTransaction) : List ℕ → PendingQueues → PendingQueues
  | [], queues => queues
  | account :: accounts, queues =>
      pushBack tx accounts
        (Function.update queues account (some ((queues account).getD [] ++ [tx])))

def lockAndEnqueueTransaction (s : Executor) (digest txBytes : Bytes) (header : TransactionHeader)
    (requiredAccounts : List ℕ) (locality : TransactionLocality) : Except Panic Executor :=
  match parseSmallbankPayload txBytes with
  | none => .error .payload
  | some sbTx =>
      -- Determine which accounts to enqueue on
      let localAccounts : Except Panic (List ℕ) := match locality with
        | .local => .ok requiredAccounts
        | .migrateOut owned _ _ => .ok owned
        | .migrateIn _ => .ok requiredAccounts
        | .others _ => .error .unreachable
      localAccounts.map fun accounts =>
        let pending : PendingTransaction :=
          ⟨txBytes, header, sbTx, digest, requiredAccounts, locality⟩
        { s with pendingQueues := pushBack pending accounts s.pendingQueues }

/-! ## Execution -/

/-- The effect of a transaction on the store, and whether it succeeds. -/
def executeSmallBank (store : AccountStore) (sbTx : SmallBankTransaction) :
    Except Panic (AccountStore × Bool) :=
  let run (r : Option (AccountStore × Bool)) : Except Panic (AccountStore × Bool) :=
    match r with
    | some r => .ok r
    | none => .error .accountNotFound
  match sbTx.txType with
  | .balance => run (store.update sbTx.accountId fun account => (account, true))
  | .depositChecking =>
      run (store.update sbTx.accountId (·.executeDepositChecking sbTx.amount))
  | .transactSavings =>
      run (store.update sbTx.accountId (·.executeTransactSavings sbTx.amount))
  | .writeCheck => run (store.update sbTx.accountId (·.executeWriteCheck sbTx.amount))
  | .sendPayment =>
      if (store sbTx.accountId).isSome ∧ (store sbTx.destAccountId).isSome then do
        let (store, debitSuccess) ←
          run (store.update sbTx.accountId (·.executeSendPaymentDebit sbTx.amount))
        if debitSuccess then
          run (store.update sbTx.destAccountId fun account =>
            (account.executeSendPaymentCredit sbTx.amount, true))
        else .ok (store, false)
      else .error .accountNotFound

/-- Executes a single transaction locally (all required accounts must be in the store).
    Only sends client reply for sample transactions. -/
def executeSingleLocalTransaction (cfg : Settings) (s : Executor) (digest txBytes : Bytes)
    (header : TransactionHeader) : Except Panic Executor :=
  let s := { s with executed := s.executed ++ [header.id] }
  match parseSmallbankPayload txBytes with
  | none => .ok s
  | some sbTx => do
      let (store, success) ← executeSmallBank s.accountStore sbTx
      let s := { s with accountStore := store }
      if header.isSample then
        match cfg.clientReplyAddress header.id.regionId with
        | none => .ok s
        | some clientAddr =>
            let reply : ClientReplyRequest :=
              ⟨digest, clientAddr, header.txType, header.id, success, sbTx.accountId,
                store sbTx.accountId⟩
            .ok { s with txClientReply := s.txClientReply ++ [reply] }
      else .ok s

/-- Handles MigrateOut: sends state transfer for each account and removes them from the
    local store. -/
def executeMigrateOut (txId : TxID) (destExecutorId : ℕ) : List ℕ → Executor →
    Except Panic Executor
  | [], s => .ok s
  | account :: accounts, s =>
      match s.accountStore account with
      | none => .error .accountNotFound
      | some accountState =>
          executeMigrateOut txId destExecutorId accounts
            { s with
              accountStore := Function.update s.accountStore account none
              txSendState := s.txSendState ++ [⟨⟨txId, account, accountState⟩, destExecutorId⟩] }

/-! ## Draining the queues -/

/-- Checks if the head of an account's pending queue is ready to execute. -/
def getExecutableQueueHead (s : Executor) (account : ℕ) :
    Except Panic (Option PendingTransaction) :=
  match s.pendingQueues account with
  | some (pending :: _) =>
      match pending.locality with
      | .migrateOut owned _ _ =>
          .ok (if s.isReadyToExecute pending.txHeader.id owned then some pending else none)
      | .migrateIn _ => .ok none
      | .others _ => .error .unreachable
      | .local =>
          .ok (if s.isReadyToExecute pending.txHeader.id pending.requiredAccounts then
            some pending else none)
  | _ => .ok none

/-- `HashSet::extend`. -/
def extendSet (worklist : List ℕ) (accounts : List ℕ) : List ℕ :=
  accounts.foldl (fun w a => if a ∈ w then w else w ++ [a]) worklist

/-- The inner loop of `drain_pending_queues`, for one account. -/
def drainAccount (cfg : Settings) (account : ℕ) : ℕ → List ℕ → Executor →
    Except Panic (List ℕ × Executor)
  | 0, _, _ => .error .fuel
  | fuel + 1, worklist, s => do
      match ← s.getExecutableQueueHead account with
      | none => .ok (worklist, s)
      | some head =>
          match head.locality with
          | .migrateOut owned _ dest => do
              let (pending, s) ← s.popTransactionFromAccounts owned head.txHeader.id
              let s ← executeMigrateOut pending.txHeader.id dest owned s
              drainAccount cfg account fuel worklist s
          | .local => do
              let (pending, s) ←
                s.popTransactionFromAccounts head.requiredAccounts head.txHeader.id
              let s ← s.executeSingleLocalTransaction cfg pending.batchDigest pending.txBytes
                pending.txHeader
              drainAccount cfg account fuel (extendSet worklist pending.requiredAccounts) s
          | _ => .error .unreachable

/-- Iteratively drains pending queues for unlocked accounts. `i` counts the accounts taken
    from the worklist. -/
def drainPendingQueues (cfg : Settings) (iter : Iteration) : ℕ → ℕ → List ℕ → Executor →
    Except Panic Executor
  | _, _, [], s => .ok s
  | 0, _, _ :: _, _ => .error .fuel
  | fuel + 1, i, account :: worklist, s => do
      let next := (account :: worklist).getD (iter.picks i % (worklist.length + 1)) account
      let (worklist, s) ←
        drainAccount cfg next iter.fuel ((account :: worklist).erase next) s
      -- Clean up empty queues
      drainPendingQueues cfg iter fuel (i + 1) worklist
        { s with pendingQueues := removeEmpty s.pendingQueues [next] }

/-! ## Incoming transfers -/

/-- One iteration of the loop of `process_incoming_transfers`, for the accounts unlocked so
    far. -/
def processTransfers (cfg : Settings) (txId : TxID) (unlockedAccounts : List ℕ) (s : Executor) :
    Except Panic (List ℕ × Executor) :=
  match s.drainedIncomingTransfers.get txId with
  | [] => .error .unreachable
  | first :: rest =>
      match s.pendingQueues first.srcAccountId with
      | some (head :: _) =>
          if head.txHeader.id ≠ txId then
            .ok (unlockedAccounts, s)
          else
            match head.locality with
            | .migrateIn accounts =>
                -- Check if ALL expected transfers have arrived
                if rest.length + 1 ≠ accounts.length then
                  .ok (unlockedAccounts, s)
                else do
                  -- Must be at head of ALL required account queues
                  if ! (← s.isAtAllHeads txId head.requiredAccounts) then
                    return (unlockedAccounts, s)
                  let migratingIds := accounts.map Prod.fst
                  if head.requiredAccounts.all fun a =>
                      migratingIds.contains a || (s.accountStore a).isSome then
                    -- Pop transfers from local buffer and execute
                    let s := { s with
                      drainedIncomingTransfers := s.drainedIncomingTransfers.erase txId }
                    let (pending, s) ← s.popTransactionFromAccounts head.requiredAccounts txId
                    let store := (first :: rest).foldl (fun (store : AccountStore) t =>
                      Function.update store t.srcAccountId (some t.srcAccountState)) s.accountStore
                    let s ← executeSingleLocalTransaction cfg { s with accountStore := store }
                      pending.batchDigest pending.txBytes pending.txHeader
                    return (unlockedAccounts ++ pending.requiredAccounts, s)
                  else
                    return (unlockedAccounts, s)
            -- deadlock indicator
            | _ => .error .unreachable
      -- the tx might not be enqueued on this account yet
      | _ => .ok (unlockedAccounts, s)

/-- The loop of `process_incoming_transfers`. -/
def processAllTransfers (cfg : Settings) : List TxID → List ℕ → Executor →
    Except Panic (List ℕ × Executor)
  | [], unlockedAccounts, s => .ok (unlockedAccounts, s)
  | txId :: txIds, unlockedAccounts, s => do
      let (unlockedAccounts, s) ← processTransfers cfg txId unlockedAccounts s
      processAllTransfers cfg txIds unlockedAccounts s

/-- Sole handler for incoming StateTransfers (MigrateIn). -/
def processIncomingTransfers (cfg : Settings) (iter : Iteration) (s : Executor) :
    Except Panic Executor := do
  -- Drain incoming_transfers once to minimize lock contention with StateHelper
  let s := { s with
    incomingTransfers := ∅
    drainedIncomingTransfers := s.drainedIncomingTransfers.extend s.incomingTransfers }
  let txIds := iter.transfers s.drainedIncomingTransfers.keys
  let (unlockedAccounts, s) ← processAllTransfers cfg txIds [] s
  if unlockedAccounts = [] then
    return s
  drainPendingQueues cfg iter iter.fuel 0 (extendSet [] unlockedAccounts) s

/-! ## Batches -/

/-- Handles execution of a local transaction. -/
def handleLocalTransaction (cfg : Settings) (s : Executor) (digest txBytes : Bytes)
    (header : TransactionHeader) (requiredAccounts : List ℕ) : Except Panic Executor :=
  if s.isReadyToExecute header.id requiredAccounts then
    s.executeSingleLocalTransaction cfg digest txBytes header
  else
    s.lockAndEnqueueTransaction digest txBytes header requiredAccounts .local

/-- Handles execution of a MigrateOut transaction (accounts leaving this executor). -/
def handleMigrateOutTransaction (s : Executor) (digest txBytes : Bytes)
    (header : TransactionHeader) (accounts othersAccounts : List ℕ) (destExecutorId : ℕ) :
    Except Panic Executor :=
  if s.isReadyToExecute header.id accounts then
    match parseSmallbankPayload txBytes with
    | none => .error .payload
    | some _ => executeMigrateOut header.id destExecutorId accounts s
  else
    s.lockAndEnqueueTransaction digest txBytes header []
      (.migrateOut accounts othersAccounts destExecutorId)

/-- Routes transaction execution based on locality type. -/
def handleTransactionByLocality (cfg : Settings) (s : Executor) (digest : Bytes)
    (tx : Scheduled × TransactionLocality) : Except Panic Executor :=
  match tx.2 with
  | .local => s.handleLocalTransaction cfg digest tx.1.txBytes tx.1.header tx.1.requiredAccounts
  | .migrateOut accounts othersAccounts destExecutorId =>
      s.handleMigrateOutTransaction digest tx.1.txBytes tx.1.header accounts othersAccounts
        destExecutorId
  | .migrateIn accounts =>
      s.lockAndEnqueueTransaction digest tx.1.txBytes tx.1.header tx.1.requiredAccounts
        (.migrateIn accounts)
  | .others _ => .ok s

/-- Loop 1 of `execute_batch`: the transactions with their localities. -/
def beginBatch (cfg : Settings) (iter : Iteration) (s : Executor) (transactions : List Bytes) :
    Except Panic (List (Scheduled × TransactionLocality) × Executor) := do
  let parsedTxs ←
    parseAndScheduleBatchTransactions cfg iter s.statesSchedulePartition transactions
  let (partition, localities) ←
    scheduleLocalities s.executorId s.statesSchedulePartition parsedTxs
  .ok (localities, { s with statesSchedulePartition := partition })

/-- Loop 2 of `execute_batch`: use the pre-computed schedule. -/
def handleAll (cfg : Settings) (digest : Bytes) : List (Scheduled × TransactionLocality) →
    Executor → Except Panic Executor
  | [], s => .ok s
  | tx :: txs, s => do
      let s ← s.handleTransactionByLocality cfg digest tx
      handleAll cfg digest txs s

def executeBatch (cfg : Settings) (iter : Iteration) (s : Executor) (digest : Bytes)
    (transactions : List Bytes) : Except Panic Executor := do
  let (localities, s) ← s.beginBatch cfg iter transactions
  let s ← handleAll cfg digest localities s
  s.processIncomingTransfers cfg iter

end Executor

end DagBft.Fusion
