/-
  All executors of the writeback design together: the `WritebackRouter` in front of them, the
  `DistributedTxExecutor`s, their `WritebackStateHelper`s and the network between these, in
  any interleaving.

  `execute_batch` looks at what has arrived where it calls `process_incoming_writebacks` and
  `process_incoming_transfers`. These calls are steps of their own, so that messages may
  arrive in the middle of a batch. Every executor gets the batches in sequence order
  (`Fusion/Sequence`).

  `run_inv`: no run panics, and every state it reaches is related to a state of the loans
  (`Lib/Loan`).
-/
import DagBft.Lib.OrdMap
import DagBft.Writeback.Batches

namespace DagBft.Writeback

open Worker Fusion Loan

/-! ## The system -/

structure Settings where
  numExecutors : ℕ
  clientReplyAddress : ℕ → Option SocketAddr

structure System where
  executors : ℕ → Executor
  /-- The batches that each executor has taken. -/
  taken : ℕ → ℕ
  /-- The `StateTransfer` messages in the network. -/
  transfers : List StateTransferRequest
  /-- The `StateWriteback` messages in the network. -/
  writebacks : List StateWritebackRequest

inductive Event
  /-- The executor takes its next batch: `execute_batch` up to the processing of what has
      arrived. -/
  | batch (e : ℕ)
  /-- `process_incoming_writebacks`. -/
  | processWritebacks (e : ℕ) (iter : Iteration)
  /-- `process_incoming_transfers`. -/
  | processTransfers (e : ℕ) (iter : Iteration)
  /-- `handle_send_state_request`. -/
  | sendTransfer (e : ℕ)
  /-- `handle_send_state_writeback_request`. -/
  | sendWriteback (e : ℕ)
  /-- `handle_executor_message`: `StateTransfer` message `i` of the network arrives. -/
  | deliverTransfer (i : ℕ)
  /-- `handle_executor_message`: `StateWriteback` message `i` of the network arrives. -/
  | deliverWriteback (i : ℕ)

/-- What the router sends to the executor for a batch. -/
def routedBatch (cfg : Settings) (partition : Partition) (e sequence : ℕ) (b : Batch) :
    Option BufferedBatch :=
  (routeExecution (List.range cfg.numExecutors) (some partition) b.digest sequence
      b.transactions).toOption.bind fun messages =>
    (messages.find? fun m => m.1 = e).map fun m => m.2.dispatch.2

/-- `handle_executor_message` with a `StateTransfer`. -/
def Executor.receiveTransfer (s : Executor) (transfer : StateTransfer) : Executor :=
  { s with incomingTransfers := s.incomingTransfers.insert transfer.txId transfer }

/-- `handle_executor_message` with a `StateWriteback`. -/
def Executor.receiveWriteback (s : Executor) (writeback : StateWritebackArrival) : Executor :=
  { s with incomingWritebacks := s.incomingWritebacks.insert writeback.txId writeback }

namespace System

/-- Each executor with its accounts and nothing to do. -/
def initial (partition : Partition) (stores : ℕ → AccountStore) : System where
  executors e :=
    { executorId := e
      statesPartition := partition
      accountStore := stores e
      accountLocks := fun _ => none
      pendingQueues := fun _ => none
      localTransfers := ∅
      localWritebacks := ∅
      distributedDestAccounts := fun _ => none
      txSendState := []
      txStateWriteback := []
      outgoingStatesBuffer := fun _ => none
      incomingTransfers := ∅
      incomingWritebacks := ∅
      txClientReply := []
      executed := []
      writtenBack := [] }
  taken _ := 0
  transfers := []
  writebacks := []

def setExecutor (sys : System) (e : ℕ) (s : Executor) : System :=
  { sys with executors := Function.update sys.executors e s }

/-- Executors from `num_executors` on do not exist: nothing happens to them. -/
def step (cfg : Settings) (partition : Partition) (batches : List Batch) (sys : System) :
    Event → Except Panic System
  | .batch e =>
      if e < cfg.numExecutors then
        match batches[sys.taken e]?.bind (routedBatch cfg partition e (sys.taken e)) with
        | none => .ok sys
        | some b => do
            let s ← Executor.executeTransactions cfg.clientReplyAddress b.digest b.transactions
              (sys.executors e)
            .ok { sys.setExecutor e s with
              taken := Function.update sys.taken e (sys.taken e + 1) }
      else .ok sys
  | .processWritebacks e iter =>
      if e < cfg.numExecutors then do
        let s ← (sys.executors e).processIncomingWritebacks cfg.clientReplyAddress iter
        .ok (sys.setExecutor e s)
      else .ok sys
  | .processTransfers e iter =>
      if e < cfg.numExecutors then do
        let s ← (sys.executors e).processIncomingTransfers cfg.clientReplyAddress iter
        .ok (sys.setExecutor e s)
      else .ok sys
  | .sendTransfer e =>
      if e < cfg.numExecutors then
        match (sys.executors e).txSendState with
        | [] => .ok sys
        | request :: requests =>
            if request.destExecutorId < cfg.numExecutors then
              .ok { sys.setExecutor e { sys.executors e with txSendState := requests } with
                transfers := sys.transfers ++ [request] }
            else .error .noExecutor
      else .ok sys
  | .sendWriteback e =>
      if e < cfg.numExecutors then
        match (sys.executors e).txStateWriteback with
        | [] => .ok sys
        | request :: requests =>
            if request.srcExecutorId < cfg.numExecutors then
              .ok { sys.setExecutor e { sys.executors e with txStateWriteback := requests } with
                writebacks := sys.writebacks ++ [request] }
            else .error .noExecutor
      else .ok sys
  | .deliverTransfer i =>
      match sys.transfers[i]? with
      | none => .ok sys
      | some message =>
          let s := (sys.executors message.destExecutorId).receiveTransfer message.stateTransfer
          .ok { sys.setExecutor message.destExecutorId s with
            transfers := sys.transfers.eraseIdx i }
  | .deliverWriteback i =>
      match sys.writebacks[i]? with
      | none => .ok sys
      | some message =>
          let s := (sys.executors message.srcExecutorId).receiveWriteback message.stateWriteback
          .ok { sys.setExecutor message.srcExecutorId s with
            writebacks := sys.writebacks.eraseIdx i }

def run (cfg : Settings) (partition : Partition) (batches : List Batch) (sys : System)
    (events : List Event) : Except Panic System := events.foldlM (step cfg partition batches) sys

/-- The condition on a step under which no lock of a pending transaction is overwritten. -/
def KeepsLocks (cfg : Settings) (partition : Partition) (batches : List Batch) (sys : System) :
    Event → Prop
  | .batch e => e < cfg.numExecutors → ∀ b,
      batches[sys.taken e]?.bind (routedBatch cfg partition e (sys.taken e)) = some b →
        (sys.executors e).Considerate cfg.clientReplyAddress b.digest b.transactions
  | _ => True

/-- All steps of a run keep the locks. -/
def Considerate (cfg : Settings) (partition : Partition) (batches : List Batch) :
    List Event → System → Prop
  | [], _ => True
  | event :: events, sys => sys.KeepsLocks cfg partition batches event ∧
      ∀ sys', step cfg partition batches sys event = .ok sys' →
        Considerate cfg partition batches events sys'

/-- All messages with a payload: those that the executors have, and those in the network. -/
def total {M : Type} (n : ℕ) (messages : ℕ → Multiset M) (network : List M) : Multiset M :=
  ∑ e ∈ Finset.range n, messages e + (network : Multiset M)

/-- All transfers on their way: queued for sending, in the network, or received and not yet
    consumed. -/
def allTransfers (n : ℕ) (sys : System) : Multiset StateTransferRequest :=
  total n (fun e => (sys.executors e).transfers) sys.transfers

def allWritebacks (n : ℕ) (sys : System) : Multiset StateWritebackRequest :=
  total n (fun e => (sys.executors e).writebacks) sys.writebacks

end System

/-! ## The course of the transactions -/

/-- A transaction over accounts of the partition. A payment is to another account, and every
    other transaction carries its own account as destination. -/
def WellFormed (partition : Partition) (txBytes : Bytes) : Prop :=
  ∃ sbTx, parseSmallbankPayload txBytes = some sbTx ∧
    (∀ a ∈ sbTx.requiredAccounts, (partition a).isSome) ∧
    (sbTx.txType = .sendPayment ↔ sbTx.destAccountId ≠ sbTx.accountId)

/-- What the executors start from: each has the accounts that the partition gives it, the
    transactions parse, are over these accounts and have different ids. -/
structure Admissible (cfg : Settings) (partition : Partition) (stores : ℕ → AccountStore)
    (batches : List Batch) : Prop where
  owned : partition.Owned cfg.numExecutors
  stores : ∀ e a, (stores e a).isSome ↔ partition a = some e
  wellFormed : ∀ b ∈ batches, ∀ tx ∈ b.transactions, WellFormed partition tx
  distinct : ((sequenceOf batches).map txIdOf).Nodup

/-- Takes everything in the order of the list, with enough fuel. -/
def Iteration.inOrder (batches : List Batch) : Iteration :=
  ⟨fun l => l, fun _ => 0, 2 * (sequenceOf batches).length + 1, fun l => List.Perm.refl l⟩

/-- The loops of a call do not run out of fuel. -/
def Event.Enough (batches : List Batch) : Event → Prop
  | .processWritebacks _ iter => 2 * (sequenceOf batches).length < iter.fuel
  | .processTransfers _ iter => 2 * (sequenceOf batches).length < iter.fuel
  | _ => True

def taskOf (digest txBytes : Bytes) : Task :=
  ⟨digest, txBytes, (TransactionHeader.parse txBytes).getD default,
    (parseSmallbankPayload txBytes).getD default⟩

/-- The transactions with their batches. -/
def tasksOf (batches : List Batch) : List Task :=
  batches.flatMap fun b => b.transactions.map (taskOf b.digest)

theorem map_txBytes_tasksOf (batches : List Batch) :
    (tasksOf batches).map Task.txBytes = sequenceOf batches := by
  unfold tasksOf sequenceOf
  rw [List.map_flatMap]
  refine List.flatMap_congr fun b _ => ?_
  rw [List.map_map]
  exact List.map_id _

theorem header_of_parse {txBytes : Bytes} {sbTx : SmallBankTransaction}
    (h : parseSmallbankPayload txBytes = some sbTx) (digest : Bytes) :
    TransactionHeader.parse txBytes = some (taskOf digest txBytes).header := by
  have hsome : (TransactionHeader.parse txBytes).isSome = true := by
    have hp := parses_iff.mpr ⟨sbTx, h⟩
    unfold parses at hp
    exact (Bool.and_eq_true _ _ ▸ hp).1
  obtain ⟨header, hheader⟩ := Option.isSome_iff_exists.mp hsome
  unfold taskOf
  rw [hheader]
  rfl

theorem sbTx_of_parse {txBytes : Bytes} {sbTx : SmallBankTransaction}
    (h : parseSmallbankPayload txBytes = some sbTx) (digest : Bytes) :
    (taskOf digest txBytes).sbTx = sbTx := by
  unfold taskOf
  rw [h]
  rfl

section Course

variable {cfg : Settings} {partition : Partition} {stores : ℕ → AccountStore}
  {batches : List Batch}

theorem Admissible.mem_tasks (hadm : Admissible cfg partition stores batches) {t : Task}
    (ht : t ∈ tasksOf batches) : ∃ digest txBytes, t = taskOf digest txBytes ∧
      WellFormed partition txBytes := by
  obtain ⟨b, hb, ht⟩ := List.mem_flatMap.mp ht
  obtain ⟨txBytes, htx, rfl⟩ := List.mem_map.mp ht
  exact ⟨b.digest, txBytes, rfl, hadm.wellFormed b hb txBytes htx⟩

/-- The course that the executors follow. -/
def course (hadm : Admissible cfg partition stores batches) : Course partition where
  store := unionStore partition stores
  tasks := tasksOf batches
  isSome_store a := by
    unfold unionStore
    cases hp : partition a with
    | none => rfl
    | some e => simp [(hadm.stores e a).mpr hp]
  header t ht := by
    obtain ⟨digest, txBytes, rfl, sbTx, hparse, -⟩ := hadm.mem_tasks ht
    exact header_of_parse hparse digest
  payload t ht := by
    obtain ⟨digest, txBytes, rfl, sbTx, hparse, -⟩ := hadm.mem_tasks ht
    rw [sbTx_of_parse hparse]
    exact hparse
  known t ht := by
    obtain ⟨digest, txBytes, rfl, sbTx, hparse, hknown, -⟩ := hadm.mem_tasks ht
    rw [sbTx_of_parse hparse]
    exact hknown
  payment t ht := by
    obtain ⟨digest, txBytes, rfl, sbTx, hparse, -, hpayment⟩ := hadm.mem_tasks ht
    rw [sbTx_of_parse hparse]
    exact hpayment
  distinct := by
    have hids : ((tasksOf batches).map fun t => t.header.id).map some =
        (sequenceOf batches).map txIdOf := by
      rw [← map_txBytes_tasksOf, List.map_map, List.map_map]
      refine List.map_congr_left fun t ht => ?_
      obtain ⟨digest, txBytes, rfl, sbTx, hparse, -⟩ := hadm.mem_tasks ht
      show some _ = txIdOf txBytes
      unfold txIdOf
      rw [header_of_parse hparse digest]
      rfl
    refine List.Nodup.of_map some ?_
    rw [hids]
    exact hadm.distinct

end Course

namespace Course

variable {cfg : Settings} {partition : Partition} {stores : ℕ → AccountStore}
  {batches : List Batch} {σ : Course partition} {sys : System} {h h' : State ℕ ℕ} {e k : ℕ}

/-- The number of transactions in the first `k` batches. -/
def offset (batches : List Batch) (k : ℕ) : ℕ := (sequenceOf (batches.take k)).length

theorem offset_succ {b : Batch} (hk : batches[k]? = some b) :
    offset batches (k + 1) = offset batches k + b.transactions.length := by
  unfold offset sequenceOf
  rw [List.take_add_one, hk, List.flatMap_append, List.length_append]
  simp

/-- The transactions of batch `k`. -/
theorem task_at (htasks : σ.tasks = tasksOf batches) {b : Batch} (hk : batches[k]? = some b)
    {m : ℕ} (hm : m < b.transactions.length) :
    offset batches k + m < σ.tasks.length ∧
      σ.task (offset batches k + m) = taskOf b.digest b.transactions[m] := by
  obtain ⟨hlt, rfl⟩ := List.getElem?_eq_some_iff.mp hk
  have hsplit : batches = batches.take k ++ batches[k] :: batches.drop (k + 1) := by
    rw [List.getElem_cons_drop, List.take_append_drop]
  have hpre : (tasksOf (batches.take k)).length = offset batches k := by
    unfold offset
    rw [← map_txBytes_tasksOf, List.length_map]
  have hall : σ.tasks = tasksOf (batches.take k) ++
      (batches[k].transactions.map (taskOf batches[k].digest) ++
        tasksOf (batches.drop (k + 1))) := by
    rw [htasks]
    conv_lhs => rw [hsplit]
    unfold tasksOf
    rw [List.flatMap_append, List.flatMap_cons]
  constructor
  · rw [hall, List.length_append, List.length_append, List.length_map, hpre]
    omega
  · unfold task
    rw [hall, ← hpre, List.getD_append_right _ _ _ _ (by omega), Nat.add_sub_cancel_left,
      List.getD_append _ _ _ _ (by simpa using hm), List.getD_eq_getElem _ _ (by simpa using hm),
      List.getElem_map]

/-- Who has a part in a transaction is sent it. -/
theorem part_iff_routed {j : ℕ} (hj : j < σ.tasks.length) :
    part σ.plan e j ≠ [] ↔ routed partition e (σ.task j).txBytes = true := by
  have hsrc : partition (σ.task j).sbTx.accountId = _ := partition_eq_home hj (src_mem hj)
  have hdest : partition (σ.task j).sbTx.destAccountId = _ := partition_eq_home hj (dest_mem hj)
  rw [routed_of_parse (σ.payload _ (task_mem hj)), hsrc, hdest, Option.some.injEq,
    Option.some.injEq]
  constructor
  · intro hpart
    exact (home_of_part hpart).imp Eq.symm Eq.symm
  · rintro (rfl | rfl)
    · exact List.ne_nil_of_mem (mem_part_iff.mpr ⟨hj, Or.inl rfl, rfl⟩)
    · exact List.ne_nil_of_mem (mem_part_iff.mpr ⟨hj, Or.inr rfl, rfl⟩)

/-- The share of the executor in batch `k`. -/
theorem share_eq (htasks : σ.tasks = tasksOf batches) {b : Batch} (hk : batches[k]? = some b)
    (e : ℕ) : σ.share e (offset batches k) b.transactions.length =
      b.transactions.filter (routed partition e) := by
  have hbytes : (List.range' (offset batches k) b.transactions.length).map
      (fun j => (σ.task j).txBytes) = b.transactions := by
    refine List.ext_getElem? fun m => ?_
    by_cases hm : m < b.transactions.length
    · rw [List.getElem?_map, List.getElem?_range' hm, Nat.one_mul]
      simp only [Option.map_some, (task_at htasks hk hm).2]
      rw [List.getElem?_eq_getElem hm]
      rfl
    · rw [List.getElem?_eq_none (by simpa using hm), List.getElem?_eq_none (by omega)]
  unfold share
  conv_rhs => rw [← hbytes, List.filter_map]
  refine congrArg _ (List.filter_congr fun j hj => ?_)
  obtain ⟨hle, hlt⟩ := List.mem_range'_1.mp hj
  obtain ⟨m, rfl⟩ := Nat.exists_eq_add_of_le hle
  have hj := (task_at htasks hk (by omega : m < b.transactions.length)).1
  rw [Function.comp_apply, Bool.eq_iff_iff, decide_eq_true_iff]
  exact part_iff_routed hj

/-- The message for an executor has its share of the batch. -/
theorem routedBatch_eq (hadm : Admissible cfg partition stores batches)
    (he : e < cfg.numExecutors) {b : Batch} (hb : b ∈ batches) (sequence : ℕ) :
    ∃ digest, routedBatch cfg partition e sequence b =
        some ⟨digest, b.transactions.filter (routed partition e)⟩ ∧
      (b.transactions.filter (routed partition e) ≠ [] → digest = b.digest) := by
  have howned : ∀ tx ∈ b.transactions, Owned (List.range cfg.numExecutors) partition tx := by
    intro tx htx _
    obtain ⟨sbTx, hparse, hknown, hpayment⟩ := hadm.wellFormed b hb tx htx
    obtain ⟨-, hsrc, hdest⟩ := parse_fields hparse
    rw [← hsrc, ← hdest]
    have hexists : ∀ a, (partition a).isSome → ∃ e ∈ List.range cfg.numExecutors,
        partition a = some e := by
      intro a ha
      obtain ⟨o, ho⟩ := Option.isSome_iff_exists.mp ha
      exact ⟨o, List.mem_range.mpr (hadm.owned a o ho), ho⟩
    by_cases htype : sbTx.txType = .sendPayment
    · have hreq := requiredAccounts_sendPayment htype
      exact ⟨hexists _ (hknown _ (hreq ▸ List.mem_cons_self)),
        hexists _ (hknown _ (hreq ▸ List.mem_cons_of_mem _ List.mem_cons_self))⟩
    · have hreq := requiredAccounts_single htype
      have hsame : sbTx.destAccountId = sbTx.accountId := by
        by_contra hne
        exact htype (hpayment.mpr hne)
      have ha := hexists _ (hknown _ (hreq ▸ List.mem_cons_self))
      exact ⟨ha, hsame ▸ ha⟩
  have hfind : (((List.range cfg.numExecutors).map fun e => (e, sendToExecutor b.digest sequence
      (b.transactions.filter (routed partition e)))).find? fun m => m.1 = e) =
      some (e, sendToExecutor b.digest sequence (b.transactions.filter (routed partition e))) := by
    have hnodup : (((List.range cfg.numExecutors).map fun e => (e, sendToExecutor b.digest sequence
        (b.transactions.filter (routed partition e)))).map Prod.fst).Nodup := by
      rw [List.map_map]
      exact (List.map_id (List.range cfg.numExecutors)).symm ▸ List.nodup_range
    exact find?_key_of_mem hnodup (List.mem_map.mpr ⟨e, List.mem_range.mpr he, rfl⟩)
  unfold routedBatch
  rw [routeExecution_eq b.digest sequence howned]
  simp only [Except.toOption, Option.bind_some, hfind, Option.map_some]
  unfold sendToExecutor
  by_cases hnil : b.transactions.filter (routed partition e) = []
  · rw [if_pos hnil]
    exact ⟨defaultDigest, by rw [hnil]; rfl, fun hne => absurd hnil hne⟩
  · rw [if_neg hnil]
    exact ⟨b.digest, rfl, fun _ => rfl⟩

/-! ## The invariant of all executors -/

/-- All executors as the sites of the loans. -/
structure Inv (σ : Course partition) (n : ℕ) (batches : List Batch) (sys : System)
    (h : State ℕ ℕ) : Prop where
  inv : State.Inv σ.plan h
  site : ∀ e < n, σ.Site h e (sys.executors e)
  transfers : sys.allTransfers n = (σ.sent h).val.map σ.transferOf
  writebacks : sys.allWritebacks n = (σ.returned h).val.map σ.writebackOf
  taken : ∀ e < n, h.taken e = offset batches (sys.taken e)
  /-- There are no other executors. -/
  others : ∀ e, n ≤ e → h.taken e = 0 ∧ h.held e = []

/-- Another executor does not see the steps of this one. -/
theorem Site.same {s : Executor} (hs : σ.Site h e s) (hsame : State.Same σ.plan e h h') :
    σ.Site h' e s where
  executorId := hs.executorId
  statesPartition := hs.statesPartition
  store := by
    rw [hs.store]
    funext a
    by_cases ha : partition a = some e
    · rw [if_pos ha, if_pos ha, hsame.front a]
      show partition.ownerD a = e
      unfold Partition.ownerD
      rw [ha]
      rfl
    · rw [if_neg ha, if_neg ha]
  locks := by
    rw [hs.locks]
    funext a
    by_cases ha : σ.home a = e
    · rw [if_pos ha, if_pos ha, hsame.lock a ha]
    · rw [if_neg ha, if_neg ha]
  queues := by
    rw [hs.queues]
    unfold Course.queues State.queue
    rw [hsame.held]
  dests := by
    rw [hsame.held]
    exact hs.dests
  outgoing := by
    rw [hsame.lent]
    exact hs.outgoing
  nodup_executed := hs.nodup_executed
  mem_executed id := by
    rw [hs.mem_executed]
    simp only [hsame.done]
  nodup_writtenBack := hs.nodup_writtenBack
  mem_writtenBack id := by
    rw [hs.mem_writtenBack]
    simp only [hsame.done]
  keyed := hs.keyed

section Total

variable {M : Type} {n : ℕ} {messages messages' : ℕ → Multiset M} {network network' : List M}

/-- The messages that are not with this executor. -/
def elsewhere (n e : ℕ) (messages : ℕ → Multiset M) (network : List M) : Multiset M :=
  ∑ e' ∈ (Finset.range n).erase e, messages e' + (network : Multiset M)

theorem total_eq (he : e < n) : System.total n messages network =
    messages e + elsewhere n e messages network := by
  unfold System.total elsewhere
  rw [← add_assoc, Finset.add_sum_erase _ messages (Finset.mem_range.mpr he)]

theorem elsewhere_congr (h : ∀ e', e' ≠ e → messages' e' = messages e') :
    elsewhere n e messages' network = elsewhere n e messages network := by
  unfold elsewhere
  refine congrArg (· + (network : Multiset M)) (Finset.sum_congr rfl fun e' he' => ?_)
  exact h e' (Finset.ne_of_mem_erase he')

/-- Messages move between an executor and the network. -/
theorem total_move (he : e < n) (h : ∀ e', e' ≠ e → messages' e' = messages e')
    (hmove : messages' e + (network' : Multiset M) = messages e + (network : Multiset M)) :
    System.total n messages' network' = System.total n messages network := by
  rw [total_eq he, total_eq he]
  unfold elsewhere
  have hrest : ∑ e' ∈ (Finset.range n).erase e, messages' e' =
      ∑ e' ∈ (Finset.range n).erase e, messages e' :=
    Finset.sum_congr rfl fun e' he' => h e' (Finset.ne_of_mem_erase he')
  rw [hrest, add_left_comm, hmove, add_left_comm]

theorem total_eq_zero (h : ∀ e, messages e = 0) : System.total n messages [] = 0 := by
  unfold System.total
  rw [Finset.sum_eq_zero fun e _ => h e]
  rfl

theorem mem_total (he : e < n) {m : M} (hm : m ∈ messages e) :
    m ∈ System.total n messages network := by
  rw [total_eq he]
  exact Multiset.mem_add.mpr (Or.inl hm)

theorem mem_total_network {m : M} (hm : m ∈ network) : m ∈ System.total n messages network :=
  Multiset.mem_add.mpr (Or.inr (Multiset.mem_coe.mpr hm))

end Total

variable {n : ℕ}

theorem Inv.running (hi : σ.Inv n batches sys h) (he : e < n) :
    σ.Running h e (elsewhere n e (fun e => (sys.executors e).transfers) sys.transfers)
      (elsewhere n e (fun e => (sys.executors e).writebacks) sys.writebacks) (sys.executors e) := by
  refine ⟨hi.inv, hi.site e he, ?_, ?_⟩
  · rw [← hi.transfers]
    exact (total_eq he).symm
  · rw [← hi.writebacks]
    exact (total_eq he).symm

/-- An executor makes steps of its site. -/
theorem Inv.set {s' : Executor} (hi : σ.Inv n batches sys h) (he : e < n)
    (hsteps : State.Steps σ.plan e h h')
    (hr : σ.Running h' e (elsewhere n e (fun e => (sys.executors e).transfers) sys.transfers)
      (elsewhere n e (fun e => (sys.executors e).writebacks) sys.writebacks) s')
    (htaken : h'.taken e = offset batches k) :
    σ.Inv n batches { sys.setExecutor e s' with taken := Function.update sys.taken e k } h' := by
  have hexec : ∀ e', e' ≠ e → (sys.setExecutor e s').executors e' = sys.executors e' :=
    fun e' hne => Function.update_of_ne hne _ _
  have hself : (sys.setExecutor e s').executors e = s' := Function.update_self _ _ _
  have hsame : ∀ e', e' ≠ e → State.Same σ.plan e' h h' := fun e' hne => hsteps.same hne
  refine ⟨hr.inv, fun e' he' => ?_, ?_, ?_, fun e' he' => ?_, fun e' he' => ?_⟩
  · by_cases hne : e' = e
    · rw [hne]
      exact hself.symm ▸ hr.site
    · exact (hexec e' hne).symm ▸ (hi.site e' he').same (hsame e' hne)
  · rw [← hr.transfers]
    refine (total_eq he).trans ?_
    show ((sys.setExecutor e s').executors e).transfers + _ = _
    rw [hself]
    exact congrArg _ (elsewhere_congr fun e' hne => congrArg Executor.transfers (hexec e' hne))
  · rw [← hr.writebacks]
    refine (total_eq he).trans ?_
    show ((sys.setExecutor e s').executors e).writebacks + _ = _
    rw [hself]
    exact congrArg _ (elsewhere_congr fun e' hne => congrArg Executor.writebacks (hexec e' hne))
  · by_cases hne : e' = e
    · rw [hne, htaken]
      simp
    · rw [(hsame e' hne).taken, hi.taken e' he']
      simp [hne]
  · rw [(hsame e' (by omega)).taken, (hsame e' (by omega)).held]
    exact hi.others e' he'

/-- Messages move between an executor and the network. -/
theorem Inv.move (s' : Executor) (transfers : List StateTransferRequest)
    (writebacks : List StateWritebackRequest) (hi : σ.Inv n batches sys h) (he : e < n)
    (hsite : σ.Site h e s')
    (htransfers : s'.transfers + (transfers : Multiset StateTransferRequest) =
      (sys.executors e).transfers + (sys.transfers : Multiset StateTransferRequest))
    (hwritebacks : s'.writebacks + (writebacks : Multiset StateWritebackRequest) =
      (sys.executors e).writebacks + (sys.writebacks : Multiset StateWritebackRequest)) :
    σ.Inv n batches { sys.setExecutor e s' with
      transfers := transfers, writebacks := writebacks } h := by
  have hexec : ∀ e', e' ≠ e → (sys.setExecutor e s').executors e' = sys.executors e' :=
    fun e' hne => Function.update_of_ne hne _ _
  have hself : (sys.setExecutor e s').executors e = s' := Function.update_self _ _ _
  refine ⟨hi.inv, fun e' he' => ?_, ?_, ?_, hi.taken, hi.others⟩
  · by_cases hne : e' = e
    · rw [hne]
      exact hself.symm ▸ hsite
    · exact (hexec e' hne).symm ▸ hi.site e' he'
  · rw [← hi.transfers]
    refine total_move he (fun e' hne => congrArg Executor.transfers (hexec e' hne)) ?_
    show ((sys.setExecutor e s').executors e).transfers + _ = _
    rw [hself]
    exact htransfers
  · rw [← hi.writebacks]
    refine total_move he (fun e' hne => congrArg Executor.writebacks (hexec e' hne)) ?_
    show ((sys.setExecutor e s').executors e).writebacks + _ = _
    rw [hself]
    exact hwritebacks

/-- A transfer that has arrived is not in the network any more. -/
theorem Running.transfer_ne_rest {s : Executor} {restTransfers : Multiset StateTransferRequest}
    {restWritebacks : Multiset StateWritebackRequest}
    (hr : σ.Running h e restTransfers restWritebacks s) {r r' : StateTransferRequest}
    (hmem : r ∈ s.transfers) (hmem' : r' ∈ restTransfers) :
    r.stateTransfer.txId ≠ r'.stateTransfer.txId := by
  intro hid
  have hin : ∀ r, r ∈ s.transfers ∨ r ∈ restTransfers → ∃ j ∈ σ.sent h, σ.transferOf j = r := by
    intro r hor
    have hr' : r ∈ (σ.sent h).val.map σ.transferOf := hr.transfers ▸ Multiset.mem_add.mpr hor
    exact Multiset.mem_map.mp hr'
  have hnodup : (s.transfers + restTransfers).Nodup := by
    rw [hr.transfers]
    refine Multiset.Nodup.map_on (fun i hi j hj heq => ?_) (σ.sent h).nodup
    exact id_injective (mem_sent.mp hi).1.1 (mem_sent.mp hj).1.1
      (congrArg (fun r => r.stateTransfer.txId) heq)
  obtain ⟨i, hi, rfl⟩ := hin r (Or.inl hmem)
  obtain ⟨j, hj, rfl⟩ := hin r' (Or.inr hmem')
  obtain rfl := id_injective (mem_sent.mp hi).1.1 (mem_sent.mp hj).1.1 hid
  exact Multiset.disjoint_left.mp (Multiset.nodup_add.mp hnodup).2.2 hmem hmem'

theorem Running.writeback_ne_rest {s : Executor} {restTransfers : Multiset StateTransferRequest}
    {restWritebacks : Multiset StateWritebackRequest}
    (hr : σ.Running h e restTransfers restWritebacks s) {r r' : StateWritebackRequest}
    (hmem : r ∈ s.writebacks) (hmem' : r' ∈ restWritebacks) :
    r.stateWriteback.txId ≠ r'.stateWriteback.txId := by
  intro hid
  have hin : ∀ r, r ∈ s.writebacks ∨ r ∈ restWritebacks →
      ∃ j ∈ σ.returned h, σ.writebackOf j = r := by
    intro r hor
    have hr' : r ∈ (σ.returned h).val.map σ.writebackOf := hr.writebacks ▸ Multiset.mem_add.mpr hor
    exact Multiset.mem_map.mp hr'
  have hnodup : (s.writebacks + restWritebacks).Nodup := by
    rw [hr.writebacks]
    refine Multiset.Nodup.map_on (fun i hi j hj heq => ?_) (σ.returned h).nodup
    exact id_injective (mem_returned.mp hi).1.1 (mem_returned.mp hj).1.1
      (congrArg (fun r => r.stateWriteback.txId) heq)
  obtain ⟨i, hi, rfl⟩ := hin r (Or.inl hmem)
  obtain ⟨j, hj, rfl⟩ := hin r' (Or.inr hmem')
  obtain rfl := id_injective (mem_returned.mp hi).1.1 (mem_returned.mp hj).1.1 hid
  exact Multiset.disjoint_left.mp (Multiset.nodup_add.mp hnodup).2.2 hmem hmem'

/-- A transfer arrives. -/
theorem Inv.deliverTransfer (hi : σ.Inv n batches sys h) {i : ℕ} {message : StateTransferRequest}
    (hm : sys.transfers[i]? = some message) (he : message.destExecutorId < n) :
    σ.Inv n batches { sys.setExecutor message.destExecutorId
        ((sys.executors message.destExecutorId).receiveTransfer message.stateTransfer) with
      transfers := sys.transfers.eraseIdx i } h := by
  have hsite := hi.site _ he
  have hrest : message ∈ elsewhere n message.destExecutorId
      (fun e => (sys.executors e).transfers) sys.transfers :=
    Multiset.mem_add.mpr (Or.inr (Multiset.mem_coe.mpr (List.mem_of_getElem? hm)))
  have hnot : message.stateTransfer.txId ∉
      (sys.executors message.destExecutorId).incomingTransfers := by
    intro hmem
    obtain ⟨t, ht, hid⟩ := hsite.keyed.incomingTransfers.mem_iff.mp hmem
    refine (hi.running he).transfer_ne_rest
      (r := ⟨t, (sys.executors message.destExecutorId).executorId⟩) ?_ hrest
      hid
    exact Multiset.mem_add.mpr (Or.inr (Multiset.mem_coe.mpr
      (List.mem_map_of_mem (List.mem_append_left _ ht))))
  refine hi.move _ (sys.transfers.eraseIdx i) sys.writebacks he ?_ ?_ rfl
  · exact ⟨hsite.executorId, hsite.statesPartition, hsite.store, hsite.locks, hsite.queues,
      hsite.dests, hsite.outgoing, hsite.nodup_executed, hsite.mem_executed,
      hsite.nodup_writtenBack, hsite.mem_writtenBack,
      ⟨hsite.keyed.1.insert _, hsite.keyed.2, hsite.keyed.3, hsite.keyed.4⟩⟩
  · obtain ⟨hlt, rfl⟩ := List.getElem?_eq_some_iff.mp hm
    have hperm := Multiset.coe_eq_coe.mpr (List.getElem_cons_eraseIdx_perm hlt)
    unfold Executor.transfers Executor.receiveTransfer
    dsimp only
    rw [AList.values_insert hnot, List.cons_append, List.map_cons, hsite.executorId, ← hperm,
      ← Multiset.cons_coe, ← Multiset.cons_coe, ← Multiset.singleton_add, ← Multiset.singleton_add]
    abel

theorem Inv.deliverWriteback (hi : σ.Inv n batches sys h) {i : ℕ}
    {message : StateWritebackRequest} (hm : sys.writebacks[i]? = some message)
    (he : message.srcExecutorId < n) :
    σ.Inv n batches { sys.setExecutor message.srcExecutorId
        ((sys.executors message.srcExecutorId).receiveWriteback message.stateWriteback) with
      writebacks := sys.writebacks.eraseIdx i } h := by
  have hsite := hi.site _ he
  have hrest : message ∈ elsewhere n message.srcExecutorId
      (fun e => (sys.executors e).writebacks) sys.writebacks :=
    Multiset.mem_add.mpr (Or.inr (Multiset.mem_coe.mpr (List.mem_of_getElem? hm)))
  have hnot : message.stateWriteback.txId ∉
      (sys.executors message.srcExecutorId).incomingWritebacks := by
    intro hmem
    obtain ⟨w, hw, hid⟩ := hsite.keyed.incomingWritebacks.mem_iff.mp hmem
    refine (hi.running he).writeback_ne_rest
      (r := ⟨w, (sys.executors message.srcExecutorId).executorId⟩) ?_ hrest
      hid
    exact Multiset.mem_add.mpr (Or.inr (Multiset.mem_coe.mpr
      (List.mem_map_of_mem (List.mem_append_left _ hw))))
  refine hi.move _ sys.transfers (sys.writebacks.eraseIdx i) he ?_ rfl ?_
  · exact ⟨hsite.executorId, hsite.statesPartition, hsite.store, hsite.locks, hsite.queues,
      hsite.dests, hsite.outgoing, hsite.nodup_executed, hsite.mem_executed,
      hsite.nodup_writtenBack, hsite.mem_writtenBack,
      ⟨hsite.keyed.1, hsite.keyed.2, hsite.keyed.3.insert _, hsite.keyed.4⟩⟩
  · obtain ⟨hlt, rfl⟩ := List.getElem?_eq_some_iff.mp hm
    have hperm := Multiset.coe_eq_coe.mpr (List.getElem_cons_eraseIdx_perm hlt)
    unfold Executor.writebacks Executor.receiveWriteback
    dsimp only
    rw [AList.values_insert hnot, List.cons_append, List.map_cons, hsite.executorId, ← hperm,
      ← Multiset.cons_coe, ← Multiset.cons_coe, ← Multiset.singleton_add, ← Multiset.singleton_add]
    abel

/-- A step that takes no batch. -/
theorem Inv.advance {s' : Executor} (hi : σ.Inv n batches sys h) (he : e < n)
    (had : σ.Advance h e (elsewhere n e (fun e => (sys.executors e).transfers) sys.transfers)
      (elsewhere n e (fun e => (sys.executors e).writebacks) sys.writebacks) h' s') :
    σ.Inv n batches (sys.setExecutor e s') h' ∧ (h'.Stuck σ.plan ↔ h.Stuck σ.plan) := by
  refine ⟨?_, State.Steps.stuck_iff proper_plan hi.inv had.steps had.taken⟩
  have hset := hi.set (k := sys.taken e) he had.steps had.running
    (by rw [had.taken]; exact hi.taken e he)
  rwa [Function.update_eq_self] at hset

section Step

variable (hadm : Admissible cfg partition stores batches)

include hadm

theorem home_lt {j a : ℕ} (hj : j < σ.tasks.length) (ha : a ∈ σ.accounts j) :
    σ.home a < cfg.numExecutors := hadm.owned a _ (partition_eq_home hj ha)

/-- The executor that a transfer goes to exists. -/
theorem Inv.dest_lt (hi : σ.Inv n batches sys h) {r : StateTransferRequest}
    (hr : r ∈ sys.allTransfers n) : r.destExecutorId < cfg.numExecutors := by
  rw [hi.transfers] at hr
  obtain ⟨j, hj, rfl⟩ := Multiset.mem_map.mp hr
  have hlt := (mem_sent.mp hj).1.1
  exact home_lt hadm hlt (dest_mem hlt)

theorem Inv.source_lt (hi : σ.Inv n batches sys h) {r : StateWritebackRequest}
    (hr : r ∈ sys.allWritebacks n) : r.srcExecutorId < cfg.numExecutors := by
  rw [hi.writebacks] at hr
  obtain ⟨j, hj, rfl⟩ := Multiset.mem_map.mp hr
  have hlt := (mem_returned.mp hj).1.1
  exact home_lt hadm hlt (src_mem hlt)

/-- The loop of `execute_batch`. -/
theorem Inv.batch (hi : σ.Inv cfg.numExecutors batches sys h) (htasks : σ.tasks = tasksOf batches)
    (he : e < cfg.numExecutors) :
    ∃ sys' h', System.step cfg partition batches sys (.batch e) = .ok sys' ∧
      σ.Inv cfg.numExecutors batches sys' h' ∧
      (h'.Stuck σ.plan ↔
        h.Stuck σ.plan ∨ ¬ sys.KeepsLocks cfg partition batches (.batch e)) := by
  cases hk : batches[sys.taken e]? with
  | none =>
      refine ⟨sys, h, by simp [System.step, hk], hi, (or_iff_left fun hnot => hnot ?_).symm⟩
      intro _ b hb
      rw [hk] at hb
      cases hb
  | some b =>
      obtain ⟨digest, hrouted, hdigest⟩ :=
        routedBatch_eq hadm he (List.mem_of_getElem? hk) (sys.taken e)
      have hshare := share_eq htasks hk e
      have htaken := hi.taken e he
      rw [← htaken] at hshare
      have hsame : (σ.share e (h.taken e) b.transactions.length = [] ∨ digest = b.digest) := by
        rw [hshare]
        by_cases hnil : b.transactions.filter (routed partition e) = []
        · exact Or.inl hnil
        · exact Or.inr (hdigest hnil)
      obtain ⟨s', h', hok, htake, hstuck⟩ := (hi.running he).executeTransactions
        cfg.clientReplyAddress b.digest b.transactions.length
        fun j hle hlt => by
          obtain ⟨m, rfl⟩ := Nat.exists_eq_add_of_le hle
          have hm : m < b.transactions.length := by omega
          rw [htaken, (task_at htasks hk hm).2]
          rfl
      -- without transactions the digest does not matter
      have hok' : Executor.executeTransactions cfg.clientReplyAddress digest
          (b.transactions.filter (routed partition e)) (sys.executors e) = .ok s' := by
        rw [← hshare]
        rcases hsame with hnil | heq
        · rw [hnil] at hok ⊢
          exact hok
        · rw [heq]
          exact hok
      have hkeeps : sys.KeepsLocks cfg partition batches (.batch e) ↔
          (sys.executors e).Considerate cfg.clientReplyAddress b.digest
            (σ.share e (h.taken e) b.transactions.length) := by
        have hbind : (some b).bind (routedBatch cfg partition e (sys.taken e)) =
            some ⟨digest, σ.share e (h.taken e) b.transactions.length⟩ := by
          rw [hshare]
          exact hrouted
        unfold System.KeepsLocks
        dsimp only
        rw [hk, hbind]
        constructor
        · intro hall
          have hcons := hall he _ rfl
          rcases hsame with hnil | heq
          · rw [hnil]
            trivial
          · rw [heq] at hcons
            exact hcons
        · intro hcons _ b' hb'
          obtain rfl := Option.some.inj hb'
          rcases hsame with hnil | heq
          · rw [hnil]
            trivial
          · rw [heq]
            exact hcons
      have hset := hi.set (k := sys.taken e + 1) he htake.steps htake.running
        (by rw [htake.taken, htaken, offset_succ hk])
      refine ⟨_, h', ?_, hset, hstuck.trans (by rw [hkeeps])⟩
      simp only [System.step, if_pos he, hk, Option.bind_some, hrouted, hok', bind, Except.bind]

/-- No event makes an executor panic, and the invariant is preserved. -/
theorem Inv.step (hi : σ.Inv cfg.numExecutors batches sys h) (htasks : σ.tasks = tasksOf batches)
    {event : Event} (hev : event.Enough batches) :
    ∃ sys' h', System.step cfg partition batches sys event = .ok sys' ∧
      σ.Inv cfg.numExecutors batches sys' h' ∧
      (h'.Stuck σ.plan ↔ h.Stuck σ.plan ∨ ¬ sys.KeepsLocks cfg partition batches event) := by
  have hlen : σ.tasks.length = (sequenceOf batches).length := by
    rw [htasks, ← map_txBytes_tasksOf, List.length_map]
  have hsame : ∀ event, sys.KeepsLocks cfg partition batches event →
      (h.Stuck σ.plan ↔ h.Stuck σ.plan ∨ ¬ sys.KeepsLocks cfg partition batches event) :=
    fun event hkeep => (or_iff_left fun hnot => hnot hkeep).symm
  cases event with
  | batch e =>
      by_cases he : e < cfg.numExecutors
      · exact hi.batch hadm htasks he
      · exact ⟨sys, h, by simp [System.step, he], hi, hsame _ fun hlt => absurd hlt he⟩
  | processWritebacks e iter =>
      by_cases he : e < cfg.numExecutors
      · obtain ⟨s', h', hok, had, -⟩ := (hi.running he).processIncomingWritebacks
          cfg.clientReplyAddress iter (by rw [hlen]; exact hev)
        obtain ⟨hi', hstuck⟩ := hi.advance he had
        refine ⟨_, h', ?_, hi', hstuck.trans (hsame _ trivial)⟩
        simp only [System.step, if_pos he, hok, bind, Except.bind]
      · exact ⟨sys, h, by simp [System.step, he], hi, hsame _ trivial⟩
  | processTransfers e iter =>
      by_cases he : e < cfg.numExecutors
      · obtain ⟨s', h', hok, had, -⟩ := (hi.running he).processIncomingTransfers
          cfg.clientReplyAddress iter (by rw [hlen]; exact hev)
        obtain ⟨hi', hstuck⟩ := hi.advance he had
        refine ⟨_, h', ?_, hi', hstuck.trans (hsame _ trivial)⟩
        simp only [System.step, if_pos he, hok, bind, Except.bind]
      · exact ⟨sys, h, by simp [System.step, he], hi, hsame _ trivial⟩
  | sendTransfer e =>
      by_cases he : e < cfg.numExecutors
      · cases hq : (sys.executors e).txSendState with
        | nil => exact ⟨sys, h, by simp [System.step, he, hq], hi, hsame _ trivial⟩
        | cons request requests =>
            have hmem : request ∈ (sys.executors e).transfers := by
              unfold Executor.transfers
              rw [hq]
              simp
            have hdest := hi.dest_lt hadm (mem_total he hmem)
            have hsite := hi.site e he
            refine ⟨_, h, ?_, hi.move { sys.executors e with txSendState := requests }
              (sys.transfers ++ [request]) sys.writebacks he ?_ ?_ rfl, hsame _ trivial⟩
            · simp only [System.step, if_pos he, hq, if_pos hdest]
              rfl
            · exact ⟨hsite.executorId, hsite.statesPartition, hsite.store, hsite.locks,
                hsite.queues, hsite.dests, hsite.outgoing, hsite.nodup_executed,
                hsite.mem_executed, hsite.nodup_writtenBack, hsite.mem_writtenBack,
                ⟨hsite.keyed.1, hsite.keyed.2, hsite.keyed.3, hsite.keyed.4⟩⟩
            · unfold Executor.transfers
              rw [hq, ← Multiset.cons_coe, ← Multiset.singleton_add, ← Multiset.coe_add,
                Multiset.coe_singleton]
              dsimp only
              abel
      · exact ⟨sys, h, by simp [System.step, he], hi, hsame _ trivial⟩
  | sendWriteback e =>
      by_cases he : e < cfg.numExecutors
      · cases hq : (sys.executors e).txStateWriteback with
        | nil => exact ⟨sys, h, by simp [System.step, he, hq], hi, hsame _ trivial⟩
        | cons request requests =>
            have hmem : request ∈ (sys.executors e).writebacks := by
              unfold Executor.writebacks
              rw [hq]
              simp
            have hsource := hi.source_lt hadm (mem_total he hmem)
            have hsite := hi.site e he
            refine ⟨_, h, ?_, hi.move { sys.executors e with txStateWriteback := requests }
              sys.transfers (sys.writebacks ++ [request]) he ?_ rfl ?_, hsame _ trivial⟩
            · simp only [System.step, if_pos he, hq, if_pos hsource]
              rfl
            · exact ⟨hsite.executorId, hsite.statesPartition, hsite.store, hsite.locks,
                hsite.queues, hsite.dests, hsite.outgoing, hsite.nodup_executed,
                hsite.mem_executed, hsite.nodup_writtenBack, hsite.mem_writtenBack,
                ⟨hsite.keyed.1, hsite.keyed.2, hsite.keyed.3, hsite.keyed.4⟩⟩
            · unfold Executor.writebacks
              rw [hq, ← Multiset.cons_coe, ← Multiset.singleton_add, ← Multiset.coe_add,
                Multiset.coe_singleton]
              dsimp only
              abel
      · exact ⟨sys, h, by simp [System.step, he], hi, hsame _ trivial⟩
  | deliverTransfer i =>
      cases hm : sys.transfers[i]? with
      | none => exact ⟨sys, h, by simp [System.step, hm], hi, hsame _ trivial⟩
      | some message =>
          have hdest := hi.dest_lt hadm (mem_total_network (List.mem_of_getElem? hm))
          exact ⟨_, h, by rw [System.step, hm], hi.deliverTransfer hm hdest, hsame _ trivial⟩
  | deliverWriteback i =>
      cases hm : sys.writebacks[i]? with
      | none => exact ⟨sys, h, by simp [System.step, hm], hi, hsame _ trivial⟩
      | some message =>
          have hsource := hi.source_lt hadm (mem_total_network (List.mem_of_getElem? hm))
          exact ⟨_, h, by rw [System.step, hm], hi.deliverWriteback hm hsource, hsame _ trivial⟩

/-- No run panics. A job is stuck exactly if some step has overwritten a lock. -/
theorem run_inv (hi : σ.Inv cfg.numExecutors batches sys h) (htasks : σ.tasks = tasksOf batches)
    {events : List Event} (henough : ∀ event ∈ events, event.Enough batches) :
    ∃ sys' h', System.run cfg partition batches sys events = .ok sys' ∧
      σ.Inv cfg.numExecutors batches sys' h' ∧
      (h'.Stuck σ.plan ↔
        h.Stuck σ.plan ∨ ¬ System.Considerate cfg partition batches events sys) := by
  induction events generalizing sys h with
  | nil => exact ⟨sys, h, rfl, hi, (or_iff_left fun hnot => hnot trivial).symm⟩
  | cons event events ih =>
      rw [List.forall_mem_cons] at henough
      obtain ⟨sys₁, h₁, hok, hi₁, hstuck₁⟩ := hi.step hadm htasks henough.1
      obtain ⟨sys', h', hok', hi', hstuck⟩ := ih hi₁ henough.2
      refine ⟨sys', h', ?_, hi', ?_⟩
      · unfold System.run at hok' ⊢
        rw [List.foldlM_cons, hok]
        exact hok'
      · have hcons : System.Considerate cfg partition batches (event :: events) sys ↔
            sys.KeepsLocks cfg partition batches event ∧
              System.Considerate cfg partition batches events sys₁ := by
          refine and_congr_right fun _ => ⟨fun hall => hall sys₁ hok, fun hcons sys₂ hok₂ => ?_⟩
          obtain rfl := Except.ok.inj (hok.symm.trans hok₂)
          exact hcons
        rw [hstuck, hstuck₁, hcons, not_and_or, or_assoc]

end Step

theorem inv_initial (hadm : Admissible cfg partition stores batches) :
    (course hadm).Inv cfg.numExecutors batches (System.initial partition stores)
      State.initial where
  inv := State.Inv.initial _
  site e _ := by
    refine ⟨rfl, rfl, ?_, ?_, ?_, fun id a => ?_, fun id => ?_, List.nodup_nil, fun id => ?_,
      List.nodup_nil, fun id => ?_, AList.Keyed.empty, AList.Keyed.empty, AList.Keyed.empty,
      AList.Keyed.empty⟩
    · funext a
      have hstore := hadm.stores e a
      show stores e a = if partition a = some e then unionStore partition stores a else none
      by_cases ha : partition a = some e
      · rw [if_pos ha, unionStore, ha]
        rfl
      · rw [if_neg ha]
        simpa [ha] using hstore
    · funext a
      simp [System.initial, State.initial]
    · funext a
      simp [System.initial, queues, State.queue, State.initial]
    · simp [System.initial, State.initial]
    · simp [System.initial, State.initial]
    · simp [System.initial, State.initial, State.Done]
    · simp [System.initial, State.initial, State.Done]
  transfers := by
    have hsent : (course hadm).sent State.initial = ∅ := by
      ext j
      rw [mem_sent]
      simp [State.initial]
    rw [hsent]
    exact total_eq_zero fun e => rfl
  writebacks := by
    have hreturned : (course hadm).returned State.initial = ∅ := by
      ext j
      rw [mem_returned]
      simp [State.initial]
    rw [hreturned]
    exact total_eq_zero fun e => rfl
  taken _ _ := by simp [State.initial, System.initial, offset, sequenceOf]
  others _ _ := ⟨rfl, rfl⟩

theorem not_stuck_initial (hadm : Admissible cfg partition stores batches) :
    ¬ State.Stuck (course hadm).plan State.initial := by
  rintro ⟨a, i, hfirst, -⟩
  exact absurd hfirst.1 List.not_mem_nil

end Course

/-- Every run from admissible executors reaches a state that follows the course. -/
theorem reach (cfg : Settings) (partition : Partition) (stores : ℕ → AccountStore)
    (batches : List Batch) (hadm : Admissible cfg partition stores batches) (events : List Event)
    (henough : ∀ event ∈ events, event.Enough batches) :
    ∃ (σ : Course partition) (sys : System) (h : State ℕ ℕ),
      System.run cfg partition batches (System.initial partition stores) events = .ok sys ∧
      σ.Inv cfg.numExecutors batches sys h ∧ σ.store = unionStore partition stores ∧
      σ.tasks = tasksOf batches ∧
      (h.Stuck σ.plan ↔ ¬ System.Considerate cfg partition batches events
        (System.initial partition stores)) := by
  obtain ⟨sys, h, hok, hi, hstuck⟩ := Course.run_inv hadm (Course.inv_initial hadm) rfl henough
  refine ⟨course hadm, sys, h, hok, hi, rfl, rfl, ?_⟩
  rw [hstuck, or_iff_right (Course.not_stuck_initial hadm)]

end DagBft.Writeback
