/-
  The two ways to execute a payment in the writeback design: `execute_single_local_transaction`
  where both accounts are local, and `process_incoming_transfers` at the executor of the
  destination with `process_incoming_writebacks` at the executor of the source.

  The first subtracts, with wrap-around, and looks at the sign; the second compares. They
  agree exactly if the difference fits an `i64` (`remotePay_eq_iff`).
-/
import DagBft.Worker.Payments
import DagBft.Writeback.Executor

namespace DagBft.Writeback

open Worker Fusion

/-! ## The two payments -/

/-- A payment at the executor of the destination, with the state of the source that was
    sent. -/
def remotePay (src dest : AccountState) (amount : Double) : AccountState × AccountState × Bool :=
  if amount.toInt64 ≤ src.checkingBalance then
    ({ src with checkingBalance := src.checkingBalance - amount.toInt64 },
      dest.executeSendPaymentCredit amount, true)
  else (src, dest, false)

theorem remotePay_flag (src dest : AccountState) (amount : Double) :
    (remotePay src dest amount).2.2 = decide (amount.toInt64 ≤ src.checkingBalance) := by
  unfold remotePay
  by_cases h : amount.toInt64 ≤ src.checkingBalance
  · rw [if_pos h, decide_eq_true h]
  · rw [if_neg h, decide_eq_false h]

theorem pay_flag (src dest : AccountState) (amount : Double) :
    (pay src dest amount).2.2 = decide (¬src.checkingBalance - amount.toInt64 < 0) := by
  by_cases h : src.checkingBalance - amount.toInt64 < 0
  · rw [pay_of_lt h, decide_eq_false (not_not_intro h)]
  · rw [pay_of_not_lt h, decide_eq_true h]

/-- The outcomes agree if the success flags do. -/
theorem remotePay_eq_iff_flag (src dest : AccountState) (amount : Double) :
    remotePay src dest amount = pay src dest amount ↔
      (remotePay src dest amount).2.2 = (pay src dest amount).2.2 := by
  refine ⟨fun h => congrArg (fun r => r.2.2) h, fun h => ?_⟩
  rw [remotePay_flag, pay_flag, decide_eq_decide] at h
  unfold remotePay
  by_cases hlt : src.checkingBalance - amount.toInt64 < 0
  · rw [pay_of_lt hlt, if_neg fun hle => h.mp hle hlt]
  · rw [pay_of_not_lt hlt, if_pos (h.mpr hlt)]
    rfl

theorem remotePay_eq_iff (src dest : AccountState) (amount : Double) :
    remotePay src dest amount = pay src dest amount ↔
      FitsI64 (src.checkingBalance.toInt - amount.toInt64.toInt) := by
  rw [remotePay_eq_iff_flag, remotePay_flag, pay_flag, decide_eq_decide, sub_lt_zero_iff,
    Int64.le_iff_toInt_le]
  unfold FitsI64
  omega

/-! ## The local path -/

variable {head head' : PendingTransaction} {queue queue' : List PendingTransaction}
  {src dest : AccountState} {srcExecutorId : ℕ}

/-- The transaction is a payment between two accounts. -/
def IsPayment (tx : SmallBankTransaction) : Prop :=
  tx.txType = .sendPayment ∧ tx.accountId ≠ tx.destAccountId

theorem executeSmallBank_pay {store : AccountStore} {tx : SmallBankTransaction}
    (htx : IsPayment tx) (hsrc : store tx.accountId = some src)
    (hdest : store tx.destAccountId = some dest) :
    Executor.executeSmallBank store tx = .ok
      (Function.update (Function.update store tx.accountId
          (some (pay src dest tx.amount).1)) tx.destAccountId
          (some (pay src dest tx.amount).2.1),
        (pay src dest tx.amount).2.2, some (pay src dest tx.amount).1) := by
  obtain ⟨htype, hne⟩ := htx
  unfold Executor.executeSmallBank Executor.updateAccount AccountStore.update
  simp only [htype, hsrc, Option.map_some, bind, Except.bind]
  by_cases hlt : src.checkingBalance - tx.amount.toInt64 < 0
  · rw [debit_of_lt hlt, pay_of_lt hlt]
    have hkeep : Function.update store tx.accountId (some src) = store :=
      Function.update_eq_self_iff.mpr hsrc.symm
    have hkeep' : Function.update store tx.destAccountId (some dest) = store :=
      Function.update_eq_self_iff.mpr hdest.symm
    simp only [hkeep, hkeep', hsrc, Bool.false_eq_true, if_false]
  · rw [debit_of_not_lt hlt, pay_of_not_lt hlt]
    simp only [Function.update_of_ne hne.symm, hdest, Option.map_some, if_true,
      Function.update_self]
    rfl

/-! ## The distributed path -/

/-- The executor of the destination has the payment at the head of its queue, and the state
    of the source has arrived. -/
structure Arrived (sd : Executor) (head : PendingTransaction) (queue : List PendingTransaction)
    (srcExecutorId : ℕ) (src dest : AccountState) : Prop where
  lookup : sd.distributedDestAccounts head.txHeader.id = some head.sbTx.destAccountId
  queue : sd.pendingQueues head.sbTx.destAccountId = some (head :: queue)
  locality : head.locality = .distributedDest head.sbTx.destAccountId srcExecutorId
  transfer : sd.localTransfers.lookup head.txHeader.id =
    some ⟨head.txHeader.id, head.sbTx.accountId, src⟩
  store : sd.accountStore head.sbTx.destAccountId = some dest

/-- The writeback of a payment. -/
def writebackOf (head : PendingTransaction) (r : AccountState × AccountState × Bool) :
    StateWritebackArrival := ⟨head.txHeader.id, head.sbTx.accountId, r.1, r.2.2⟩

/-- The executor of the source has the payment at the head of its queue, and the writeback
    has arrived. -/
structure Returned (ss : Executor) (head : PendingTransaction) (queue : List PendingTransaction)
    (writeback : StateWritebackArrival) (src : AccountState) : Prop where
  queue : ss.pendingQueues writeback.srcAccountId = some (head :: queue)
  head : head.txHeader.id = writeback.txId
  arrived : ss.localWritebacks.lookup writeback.txId = some writeback
  store : ss.accountStore writeback.srcAccountId = some src

section Reply

variable (clientReplyAddress : ℕ → Option SocketAddr) (s : Executor) (digest : Bytes)
  (header : TransactionHeader) (success : Bool) (accountId : ℕ)
  (accountState : Option AccountState)

theorem reply_accountStore :
    (s.reply clientReplyAddress digest header success accountId accountState).accountStore =
      s.accountStore := by
  unfold Executor.reply
  split <;> rfl

theorem reply_txStateWriteback :
    (s.reply clientReplyAddress digest header success accountId accountState).txStateWriteback =
      s.txStateWriteback := by
  unfold Executor.reply
  split <;> rfl

theorem reply_pendingQueues :
    (s.reply clientReplyAddress digest header success accountId accountState).pendingQueues =
      s.pendingQueues := by
  unfold Executor.reply
  split <;> rfl

end Reply

/-- The transfer is processed: the destination is credited, and the new state of the source
    goes back. -/
theorem processTransfer_of_arrived (clientReplyAddress : ℕ → Option SocketAddr)
    (unlockedAccounts : List ℕ) {sd : Executor}
    (h : Arrived sd head queue srcExecutorId src dest) :
    ∃ sd', Executor.processTransfer clientReplyAddress head.txHeader.id unlockedAccounts sd =
        .ok (Fusion.Executor.extendSet unlockedAccounts [head.sbTx.destAccountId], sd') ∧
      sd'.accountStore = Function.update sd.accountStore head.sbTx.destAccountId
        (some (remotePay src dest head.sbTx.amount).2.1) ∧
      sd'.txStateWriteback = sd.txStateWriteback ++
        [⟨writebackOf head (remotePay src dest head.sbTx.amount), srcExecutorId⟩] ∧
      sd'.pendingQueues = Executor.removeEmpty (Function.update sd.pendingQueues
        head.sbTx.destAccountId (some queue)) [head.sbTx.destAccountId] := by
  obtain ⟨hlookup, hqueue, hlocality, htransfer, hstore⟩ := h
  unfold Executor.processTransfer
  simp only [hlookup, hqueue, ne_eq, not_true_eq_false, if_false, htransfer, hlocality,
    Executor.updateAccount, AccountStore.update, hstore, Option.map_some]
  have hkeep : Function.update sd.accountStore head.sbTx.destAccountId (some dest) =
      sd.accountStore := Function.update_eq_self_iff.mpr hstore.symm
  unfold remotePay writebackOf
  by_cases hle : head.sbTx.amount.toInt64 ≤ src.checkingBalance
  · simp only [hle, decide_true, if_true, bind, Except.bind]
    exact ⟨_, rfl, reply_accountStore _ _ _ _ _ _ _,
      congrArg (· ++ _) (reply_txStateWriteback _ _ _ _ _ _ _),
      congrArg (fun q => Executor.removeEmpty (Function.update q _ _) _)
        (reply_pendingQueues _ _ _ _ _ _ _)⟩
  · simp only [hle, decide_false, Bool.false_eq_true, if_false, bind, Except.bind, hkeep]
    exact ⟨_, rfl, reply_accountStore _ _ _ _ _ _ _,
      congrArg (· ++ _) (reply_txStateWriteback _ _ _ _ _ _ _),
      congrArg (fun q => Executor.removeEmpty (Function.update q _ _) _)
        (reply_pendingQueues _ _ _ _ _ _ _)⟩

/-- The writeback is processed: the source gets its new state. -/
theorem processWriteback_of_returned (unlockedAccounts : List ℕ) {ss : Executor}
    {writeback : StateWritebackArrival} (h : Returned ss head queue writeback src) :
    ∃ ss', Executor.processWriteback writeback.txId unlockedAccounts ss =
        .ok (Fusion.Executor.extendSet unlockedAccounts [writeback.srcAccountId], ss') ∧
      ss'.accountStore = Function.update ss.accountStore writeback.srcAccountId
        (some writeback.accountState) ∧
      ss'.pendingQueues = Executor.removeEmpty (Function.update ss.pendingQueues
        writeback.srcAccountId (some queue)) [writeback.srcAccountId] := by
  obtain ⟨hqueue, hhead, hwriteback, hstore⟩ := h
  unfold Executor.processWriteback
  simp only [hwriteback, hqueue, hhead, ne_eq, not_true_eq_false, if_false, hstore,
    Option.isSome_some, if_true]
  exact ⟨_, rfl, rfl, rfl⟩

/-! ### The calls as a whole, where nothing else waits -/

/-- `process_incoming_transfers` once it has taken what has arrived. -/
def takeTransfers (s : Executor) : Executor :=
  { s with
    incomingTransfers := ∅
    localTransfers := s.incomingTransfers ∪ s.localTransfers }

/-- `process_incoming_writebacks` once it has taken what has arrived. -/
def takeWritebacks (s : Executor) : Executor :=
  { s with
    incomingWritebacks := ∅
    localWritebacks := s.incomingWritebacks ∪ s.localWritebacks }

theorem processIncomingTransfers_eq (clientReplyAddress : ℕ → Option SocketAddr)
    (iter : Iteration) (s : Executor) : s.processIncomingTransfers clientReplyAddress iter =
      (Executor.forEach (Executor.processTransfer clientReplyAddress)
        (iter.txIds (takeTransfers s).localTransfers.keys) [] (takeTransfers s) >>= fun r =>
          Executor.drainPendingQueues clientReplyAddress iter iter.fuel 0 r.1 r.2) := rfl

theorem processIncomingWritebacks_eq (clientReplyAddress : ℕ → Option SocketAddr)
    (iter : Iteration) (s : Executor) : s.processIncomingWritebacks clientReplyAddress iter =
      (Executor.forEach Executor.processWriteback
        (iter.txIds (takeWritebacks s).localWritebacks.keys) [] (takeWritebacks s) >>= fun r =>
          Executor.drainPendingQueues clientReplyAddress iter iter.fuel 0 r.1 r.2) := rfl

variable {clientReplyAddress : ℕ → Option SocketAddr} {iter : Iteration}

/-- There is nothing to drain on an account without a queue. -/
theorem drainPendingQueues_of_none {s : Executor} {account : ℕ} (hfuel : 0 < iter.fuel)
    (h : s.pendingQueues account = none) :
    Executor.drainPendingQueues clientReplyAddress iter iter.fuel 0 [account] s = .ok s := by
  obtain ⟨fuel, hfuel⟩ : ∃ fuel, iter.fuel = fuel + 1 := Nat.exists_eq_succ_of_ne_zero hfuel.ne'
  rw [hfuel, Executor.drainPendingQueues]
  simp only [List.length_nil, Nat.zero_add, Nat.mod_one, List.getD_cons_zero, hfuel,
    Executor.drainAccount, h, List.erase_cons_head, bind, Except.bind,
    Executor.drainPendingQueues]

theorem removeEmpty_update (queues : PendingQueues) (account : ℕ) :
    Executor.removeEmpty (Function.update queues account (some [])) [account] account = none := by
  unfold Executor.removeEmpty
  rw [Function.update_self, if_pos ⟨List.mem_singleton_self _, rfl⟩]

theorem processIncomingTransfers_of_arrived {sd : Executor} (hfuel : 0 < iter.fuel)
    (hkeys : (takeTransfers sd).localTransfers.keys = [head.txHeader.id])
    (h : Arrived (takeTransfers sd) head [] srcExecutorId src dest) :
    ∃ sd', sd.processIncomingTransfers clientReplyAddress iter = .ok sd' ∧
      sd'.accountStore = Function.update sd.accountStore head.sbTx.destAccountId
        (some (remotePay src dest head.sbTx.amount).2.1) ∧
      sd'.txStateWriteback = sd.txStateWriteback ++
        [⟨writebackOf head (remotePay src dest head.sbTx.amount), srcExecutorId⟩] := by
  obtain ⟨sd', hsd', hstore, hwriteback, hqueues⟩ :=
    processTransfer_of_arrived clientReplyAddress [] h
  have hids : iter.txIds (takeTransfers sd).localTransfers.keys = [head.txHeader.id] := by
    rw [hkeys]
    exact List.perm_singleton.mp (iter.txIds_perm _)
  have hnone : sd'.pendingQueues head.sbTx.destAccountId = none := by
    rw [hqueues]
    exact removeEmpty_update _ _
  refine ⟨sd', ?_, hstore, hwriteback⟩
  rw [processIncomingTransfers_eq]
  simp only [hids, Executor.forEach, hsd', bind, Except.bind]
  exact drainPendingQueues_of_none hfuel hnone

theorem processIncomingWritebacks_of_returned {ss : Executor}
    {writeback : StateWritebackArrival} (hfuel : 0 < iter.fuel)
    (hkeys : (takeWritebacks ss).localWritebacks.keys = [writeback.txId])
    (h : Returned (takeWritebacks ss) head [] writeback src) :
    ∃ ss', ss.processIncomingWritebacks clientReplyAddress iter = .ok ss' ∧
      ss'.accountStore = Function.update ss.accountStore writeback.srcAccountId
        (some writeback.accountState) := by
  obtain ⟨ss', hss', hstore, hqueues⟩ := processWriteback_of_returned [] h
  have hids : iter.txIds (takeWritebacks ss).localWritebacks.keys = [writeback.txId] := by
    rw [hkeys]
    exact List.perm_singleton.mp (iter.txIds_perm _)
  have hnone : ss'.pendingQueues writeback.srcAccountId = none := by
    rw [hqueues]
    exact removeEmpty_update _ _
  refine ⟨ss', ?_, hstore⟩
  rw [processIncomingWritebacks_eq]
  simp only [hids, Executor.forEach, hss', bind, Except.bind]
  exact drainPendingQueues_of_none hfuel hnone

/-! ## The two paths compared -/

/-- The paths give the same success flag and the same states of the two accounts. -/
def Agree (tx : SmallBankTransaction) (success : Bool) (atBoth : AccountStore)
    (writeback : StateWritebackArrival) (atSource atDest : AccountStore) : Prop :=
  success = writeback.success ∧ atBoth tx.accountId = atSource tx.accountId ∧
    atBoth tx.destAccountId = atDest tx.destAccountId

theorem agree_iff {atBoth atSource atDest : AccountStore} (hne : IsPayment head.sbTx) :
    Agree head.sbTx (pay src dest head.sbTx.amount).2.2
      (Function.update (Function.update atBoth head.sbTx.accountId
        (some (pay src dest head.sbTx.amount).1)) head.sbTx.destAccountId
        (some (pay src dest head.sbTx.amount).2.1))
      (writebackOf head (remotePay src dest head.sbTx.amount))
      (Function.update atSource head.sbTx.accountId
        (some (remotePay src dest head.sbTx.amount).1))
      (Function.update atDest head.sbTx.destAccountId
        (some (remotePay src dest head.sbTx.amount).2.1)) ↔
    FitsI64 (src.checkingBalance.toInt - head.sbTx.amount.toInt64.toInt) := by
  rw [← remotePay_eq_iff src dest]
  unfold Agree writebackOf
  rw [Function.update_of_ne hne.2, Function.update_self, Function.update_self,
    Function.update_self, Function.update_self]
  constructor
  · rintro ⟨hflag, hsrc, hdest⟩
    exact Prod.ext (Option.some.inj hsrc).symm (Prod.ext (Option.some.inj hdest).symm hflag.symm)
  · intro h
    rw [h]
    exact ⟨rfl, rfl, rfl⟩

theorem executeSingleLocalTransaction_pay (clientReplyAddress : ℕ → Option SocketAddr)
    (sl : Executor) (digest : Bytes) (header : TransactionHeader) {txBytes : Bytes}
    {tx : SmallBankTransaction} (hparse : parseSmallbankPayload txBytes = some tx)
    (htx : IsPayment tx) (hsrc : sl.accountStore tx.accountId = some src)
    (hdest : sl.accountStore tx.destAccountId = some dest) :
    ∃ sl', sl.executeSingleLocalTransaction clientReplyAddress digest txBytes header = .ok sl' ∧
      sl'.accountStore = Function.update (Function.update sl.accountStore tx.accountId
        (some (pay src dest tx.amount).1)) tx.destAccountId
        (some (pay src dest tx.amount).2.1) := by
  unfold Executor.executeSingleLocalTransaction
  simp only [hparse, executeSmallBank_pay htx hsrc hdest, bind, Except.bind]
  exact ⟨_, rfl, reply_accountStore _ _ _ _ _ _ _⟩

/-- A payment between two shards and one within a shard agree exactly if the debit does not
    overflow: for every transfer and writeback as it is processed, and for the two calls as a
    whole where nothing else is buffered or waits on the accounts. -/
theorem payment_paths_agree_iff (clientReplyAddress : ℕ → Option SocketAddr)
    (sl sd : Executor) (head : PendingTransaction) (src dest : AccountState)
    (srcExecutorId : ℕ) (hparse : parseSmallbankPayload head.txBytes = some head.sbTx)
    (htx : IsPayment head.sbTx) (hsrc : sl.accountStore head.sbTx.accountId = some src)
    (hdest : sl.accountStore head.sbTx.destAccountId = some dest) :
    ∃ sl' success state,
      sl.executeSingleLocalTransaction clientReplyAddress head.batchDigest head.txBytes
        head.txHeader = .ok sl' ∧
      Executor.executeSmallBank sl.accountStore head.sbTx =
        .ok (sl'.accountStore, success, state) ∧
      (∀ queue unlockedAccounts, Arrived sd head queue srcExecutorId src dest →
        ∃ unlockedAccounts' sd' writeback,
          Executor.processTransfer clientReplyAddress head.txHeader.id unlockedAccounts sd =
            .ok (unlockedAccounts', sd') ∧
          sd'.txStateWriteback = sd.txStateWriteback ++ [⟨writeback, srcExecutorId⟩] ∧
          ∀ ss head' queue' unlockedAccounts, Returned ss head' queue' writeback src →
            ∃ unlockedAccounts' ss',
              Executor.processWriteback writeback.txId unlockedAccounts ss =
                .ok (unlockedAccounts', ss') ∧
              (Agree head.sbTx success sl'.accountStore writeback ss'.accountStore
                  sd'.accountStore ↔
                FitsI64 (src.checkingBalance.toInt - head.sbTx.amount.toInt64.toInt))) ∧
      ∀ iter : Iteration, 0 < iter.fuel →
        (takeTransfers sd).localTransfers.keys = [head.txHeader.id] →
        Arrived (takeTransfers sd) head [] srcExecutorId src dest →
        ∃ sd' writeback, sd.processIncomingTransfers clientReplyAddress iter = .ok sd' ∧
          sd'.txStateWriteback = sd.txStateWriteback ++ [⟨writeback, srcExecutorId⟩] ∧
          ∀ ss head', (takeWritebacks ss).localWritebacks.keys = [writeback.txId] →
            Returned (takeWritebacks ss) head' [] writeback src →
            ∃ ss', ss.processIncomingWritebacks clientReplyAddress iter = .ok ss' ∧
              (Agree head.sbTx success sl'.accountStore writeback ss'.accountStore
                  sd'.accountStore ↔
                FitsI64 (src.checkingBalance.toInt - head.sbTx.amount.toInt64.toInt)) := by
  obtain ⟨sl', hsl', hlocal⟩ := executeSingleLocalTransaction_pay clientReplyAddress sl
    head.batchDigest head.txHeader hparse htx hsrc hdest
  refine ⟨sl', _, _, hsl', hlocal ▸ executeSmallBank_pay htx hsrc hdest, ?_, ?_⟩
  · intro queue unlockedAccounts harrived
    obtain ⟨sd', hsd', hstore, hwriteback, -⟩ :=
      processTransfer_of_arrived clientReplyAddress unlockedAccounts harrived
    refine ⟨_, sd', _, hsd', hwriteback, fun ss head' queue' unlockedAccounts' hreturned => ?_⟩
    obtain ⟨ss', hss', hstore', -⟩ := processWriteback_of_returned unlockedAccounts' hreturned
    refine ⟨_, ss', hss', ?_⟩
    rw [hlocal, hstore, hstore']
    exact agree_iff htx
  · intro iter hfuel hkeys harrived
    obtain ⟨sd', hsd', hstore, hwriteback⟩ :=
      processIncomingTransfers_of_arrived hfuel hkeys harrived
    refine ⟨sd', _, hsd', hwriteback, fun ss head' hkeys' hreturned => ?_⟩
    obtain ⟨ss', hss', hstore'⟩ :=
      processIncomingWritebacks_of_returned hfuel hkeys' hreturned
    refine ⟨ss', hss', ?_⟩
    rw [hlocal, hstore, hstore']
    exact agree_iff htx

/-! ## A payment from account 1 to account 2 -/

section Sample

namespace PaymentSample

def txId : TxID := ⟨0, 0⟩

/-- The payment with the bits of its amount, as it waits at the executor of account 2 (and,
    with another locality, at that of account 1). -/
def payment (bits : Bytes) (amount : ℚ) (locality : TransactionLocality) :
    PendingTransaction where
  txBytes := [1, 0, 0, 0, 0, 0, 0, 0, 0, 0] ++ [0, 0, 0, 0, 0, 0, 0, 1] ++
    [0, 0, 0, 0, 0, 0, 0, 2] ++ [4] ++ bits
  txHeader := ⟨1, txId⟩
  sbTx := ⟨.sendPayment, 1, 2, .finite amount⟩
  batchDigest := []
  requiredAccounts := [1, 2]
  locality := locality

/-- Balances of 7; `accounts` are those of the executor. -/
def executor (accounts : List ℕ) : Executor where
  executorId := 0
  statesPartition := fun _ => none
  accountStore a := if a ∈ accounts then some ⟨7, 0⟩ else none
  accountLocks _ := none
  pendingQueues _ := none
  localTransfers := ∅
  localWritebacks := ∅
  distributedDestAccounts _ := none
  txSendState := []
  txStateWriteback := []
  outgoingStatesBuffer _ := none
  incomingTransfers := ∅
  incomingWritebacks := ∅
  txClientReply := []
  executed := []
  writtenBack := []

/-- The executor of account 2, where the payment waits and the state of account 1 is there. -/
def atDest (head : PendingTransaction) : Executor :=
  { executor [2] with
    pendingQueues := fun a => if a = 2 then some [head] else none
    distributedDestAccounts := fun id => if id = txId then some 2 else none
    localTransfers := AList.singleton txId ⟨txId, 1, ⟨7, 0⟩⟩ }

/-- The executor of account 1, where the writeback has arrived. -/
def atSource (head : PendingTransaction) (writeback : StateWritebackArrival) : Executor :=
  { executor [1] with
    pendingQueues := fun a => if a = 1 then some [head] else none
    localWritebacks := AList.singleton txId writeback }

def destLocality : TransactionLocality := .distributedDest 2 0

def sourceLocality : TransactionLocality := .distributedSource 1 0

/-- 5.0. -/
def five (locality : TransactionLocality) : PendingTransaction :=
  payment [0x40, 0x14, 0, 0, 0, 0, 0, 0] 5 locality

/-- The least `i64`, as an amount. -/
def least (locality : TransactionLocality) : PendingTransaction :=
  payment [0xC3, 0xE0, 0, 0, 0, 0, 0, 0] (-2 ^ 63) locality

theorem parse_five :
    parseSmallbankPayload (five destLocality).txBytes = some (five destLocality).sbTx := by
  decide +kernel

theorem parse_least :
    parseSmallbankPayload (least destLocality).txBytes = some (least destLocality).sbTx := by
  decide +kernel

theorem isPayment (bits : Bytes) (amount : ℚ) (locality : TransactionLocality) :
    IsPayment (payment bits amount locality).sbTx := ⟨rfl, Nat.succ_ne_self 1 |>.symm⟩

theorem arrived (bits : Bytes) (amount : ℚ) :
    Arrived (atDest (payment bits amount destLocality)) (payment bits amount destLocality) [] 0
      ⟨7, 0⟩ ⟨7, 0⟩ :=
  ⟨rfl, rfl, rfl, rfl, rfl⟩

theorem returned (bits : Bytes) (amount : ℚ) (r : AccountState × AccountState × Bool) :
    Returned (atSource (payment bits amount sourceLocality)
        (writebackOf (payment bits amount destLocality) r))
      (payment bits amount sourceLocality) [] (writebackOf (payment bits amount destLocality) r)
      ⟨7, 0⟩ :=
  ⟨rfl, rfl, rfl, rfl⟩

end PaymentSample

open PaymentSample

theorem payment_paths_agree_iff_sample :
    ∃ sl' success state,
      (executor [1, 2]).executeSingleLocalTransaction (fun _ => none) []
        (five destLocality).txBytes ⟨1, txId⟩ = .ok sl' ∧
      Executor.executeSmallBank (executor [1, 2]).accountStore (five destLocality).sbTx =
        .ok (sl'.accountStore, success, state) ∧
      ∃ unlockedAccounts sd' writeback,
        Executor.processTransfer (fun _ => none) txId [] (atDest (five destLocality)) =
          .ok (unlockedAccounts, sd') ∧
        sd'.txStateWriteback = [⟨writeback, 0⟩] ∧
        ∀ ss, Returned ss (five sourceLocality) [] writeback ⟨7, 0⟩ →
          ∃ unlockedAccounts' ss',
            Executor.processWriteback writeback.txId [] ss = .ok (unlockedAccounts', ss') ∧
            (Agree (five destLocality).sbTx success sl'.accountStore writeback ss'.accountStore
                sd'.accountStore ↔
              FitsI64 ((7 : Int64).toInt - (five destLocality).sbTx.amount.toInt64.toInt)) := by
  obtain ⟨sl', success, state, hsl', hsmall, hpaths, -⟩ :=
    payment_paths_agree_iff (fun _ => none) (executor [1, 2]) (atDest (five destLocality))
      (five destLocality) ⟨7, 0⟩ ⟨7, 0⟩ 0 parse_five (isPayment _ _ _) rfl rfl
  refine ⟨sl', success, state, hsl', hsmall, ?_⟩
  obtain ⟨u, sd', writeback, hsd', hwriteback, hreturn⟩ := hpaths [] [] (arrived _ _)
  exact ⟨u, sd', writeback, hsd', hwriteback,
    fun ss hreturned => hreturn ss (five sourceLocality) [] [] hreturned⟩

/-- The payment of the least `i64`: the local debit wraps around to a negative balance and
    is refused, and the executor of the destination takes it for a payment that is covered. -/
theorem payment_paths_disagree :
    ¬ ∀ (clientReplyAddress : ℕ → Option SocketAddr) (sl sl' sd sd' ss ss' : Executor)
        (head head' : PendingTransaction) (src dest : AccountState) (srcExecutorId : ℕ)
        (success : Bool) (state : Option AccountState) (writeback : StateWritebackArrival)
        (unlockedAccounts unlockedAccounts' : List ℕ),
        parseSmallbankPayload head.txBytes = some head.sbTx → IsPayment head.sbTx →
        sl.accountStore head.sbTx.accountId = some src →
        sl.accountStore head.sbTx.destAccountId = some dest →
        Arrived sd head [] srcExecutorId src dest →
        sl.executeSingleLocalTransaction clientReplyAddress head.batchDigest head.txBytes
          head.txHeader = .ok sl' →
        Executor.executeSmallBank sl.accountStore head.sbTx =
          .ok (sl'.accountStore, success, state) →
        Executor.processTransfer clientReplyAddress head.txHeader.id [] sd =
          .ok (unlockedAccounts, sd') →
        sd'.txStateWriteback = sd.txStateWriteback ++ [⟨writeback, srcExecutorId⟩] →
        Returned ss head' [] writeback src →
        Executor.processWriteback writeback.txId [] ss = .ok (unlockedAccounts', ss') →
        Agree head.sbTx success sl'.accountStore writeback ss'.accountStore sd'.accountStore := by
  intro h
  have htx : IsPayment (least destLocality).sbTx := isPayment _ _ _
  obtain ⟨sl', hsl', hlocal⟩ := executeSingleLocalTransaction_pay (fun _ => none)
    (executor [1, 2]) [] ⟨1, txId⟩ parse_least htx rfl rfl
  obtain ⟨sd', hsd', hstore, hwriteback, -⟩ :=
    processTransfer_of_arrived (fun _ => none) [] (arrived _ (-2 ^ 63))
  obtain ⟨ss', hss', hstore', -⟩ := processWriteback_of_returned [] (returned _ (-2 ^ 63) _)
  have hagree := h _ _ sl' _ sd' _ ss' (least destLocality) (least sourceLocality) ⟨7, 0⟩ ⟨7, 0⟩ 0
    _ _ _ _ _ parse_least htx rfl rfl (arrived _ _) hsl'
    (hlocal ▸ executeSmallBank_pay htx rfl rfl) hsd' hwriteback (returned _ _ _) hss'
  rw [hlocal, hstore, hstore'] at hagree
  exact absurd ((agree_iff htx).mp hagree) (by decide +kernel)

end Sample

end DagBft.Writeback
