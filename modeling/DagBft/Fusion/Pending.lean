/-
  The pending queues of one executor of the data-fusion design, as the queues of one list of
  transactions (`Lib/LockQueues`).

  `Holds` says that these transactions are pending, with different ids. The functions of
  `worker/src/batch_executor.rs` keep it, whatever the batches and the transfers are: they
  append transactions (`Holds.handleAll`), or take one from the head of all its queues
  (`Holds.pop`, `Holds.processTransfers`).
-/
import DagBft.Fusion.Malformed
import DagBft.Lib.LockQueues

namespace DagBft.Fusion

open Worker LockQueues

/-- What `lock_and_enqueue_transaction` makes sure of. -/
structure PendingTransaction.Proper (p : PendingTransaction) : Prop where
  payload : parseSmallbankPayload p.txBytes = some p.sbTx
  required : p.locality = .local → p.requiredAccounts = p.sbTx.requiredAccounts
  owned : ∀ owned others dest, p.locality = .migrateOut owned others dest →
    owned.Sublist p.sbTx.requiredAccounts
  others : ∀ e, p.locality ≠ .others e

/-- One of these transactions. -/
structure PendingTransaction.Of (p : PendingTransaction) (txs : List Bytes) : Prop where
  bytes : p.txBytes ∈ txs
  header : TransactionHeader.parse p.txBytes = some p.txHeader

/-- `drain_pending_queues` can deal with it. -/
def PendingTransaction.Drainable (p : PendingTransaction) : Prop :=
  match p.locality with
  | .local => True
  | .migrateOut _ _ _ => True
  | _ => False

/-- The queues of these transactions. -/
def queuesOf (held : List PendingTransaction) : PendingQueues := fun a =>
  if queue PendingTransaction.enqueuedOn held a = [] then none
  else some (queue PendingTransaction.enqueuedOn held a)

/-- At the head of all its queues. -/
abbrev AtHead (held : List PendingTransaction) (p : PendingTransaction) : Prop :=
  Head PendingTransaction.enqueuedOn held p

abbrev firstOn (held : List PendingTransaction) (a : ℕ) : Option PendingTransaction :=
  first PendingTransaction.enqueuedOn held a

/-- The transfers that have been received and not consumed. -/
def Executor.buffers (s : Executor) : TransferMap × TransferMap :=
  (s.incomingTransfers, s.drainedIncomingTransfers)

/-- These transactions are pending. -/
structure Holds (held : List PendingTransaction) (s : Executor) : Prop where
  queues : s.pendingQueues = queuesOf held
  proper : ∀ p ∈ held, p.Proper
  distinct : (held.map fun p => p.txHeader.id).Nodup

section Queues

variable {held : List PendingTransaction} {s s' : Executor} {p q : PendingTransaction} {a : ℕ}

theorem PendingTransaction.Of.id_mem {txs : List Bytes} (h : p.Of txs) :
    p.txHeader.id ∈ txs.filterMap txIdOf := by
  refine List.mem_filterMap.mpr ⟨p.txBytes, h.bytes, ?_⟩
  unfold txIdOf
  rw [h.header]
  rfl

theorem PendingTransaction.Of.mono {txs txs' : List Bytes} (h : p.Of txs) (hsub : txs ⊆ txs') :
    p.Of txs' :=
  ⟨hsub h.bytes, h.header⟩

theorem queuesOf_of_none (h : firstOn held a = none) : queuesOf held a = none := by
  unfold queuesOf
  rw [if_pos (queue_eq_nil h)]

theorem queuesOf_of_some (h : firstOn held a = some p) :
    ∃ later, queuesOf held a = some (p :: later) := by
  obtain ⟨later, hlater⟩ := exists_queue_eq h
  refine ⟨later, ?_⟩
  unfold queuesOf
  rw [hlater, if_neg (List.cons_ne_nil _ _)]

theorem firstOn_of_queuesOf {later : List PendingTransaction}
    (h : queuesOf held a = some (p :: later)) : firstOn held a = some p := by
  cases hf : firstOn held a with
  | none =>
      rw [queuesOf_of_none hf] at h
      cases h
  | some q =>
      obtain ⟨later', hlater'⟩ := queuesOf_of_some hf
      rw [hlater'] at h
      exact congrArg some (List.cons.inj (Option.some.inj h)).1

theorem PendingTransaction.Proper.drainable_or (h : p.Proper) :
    p.Drainable ∨ ∃ accounts, p.locality = .migrateIn accounts := by
  unfold PendingTransaction.Drainable
  cases hl : p.locality with
  | migrateIn accounts => exact Or.inr ⟨accounts, rfl⟩
  | others e => exact absurd hl (h.others e)
  | _ => exact Or.inl trivial

theorem getExecutableQueueHead_of_drainable {later : List PendingTransaction}
    (hq : s.pendingQueues a = some (p :: later)) (hp : p.Drainable) :
    s.getExecutableQueueHead a =
      .ok (if s.isReadyToExecute p.txHeader.id p.enqueuedOn then some p else none) := by
  unfold Executor.getExecutableQueueHead PendingTransaction.enqueuedOn
  unfold PendingTransaction.Drainable at hp
  rw [hq]
  dsimp only
  split at hp
  · rename_i hl
    rw [hl]
  · rename_i hl
    rw [hl]
  · exact hp.elim

namespace Holds

theorem eq_of_id (hh : Holds held s) (hp : p ∈ held) (hq : q ∈ held)
    (h : p.txHeader.id = q.txHeader.id) : p = q :=
  List.inj_on_of_nodup_map hh.distinct hp hq h

theorem length_le {ids : List TxID} (hh : Holds held s)
    (h : ∀ p ∈ held, p.txHeader.id ∈ ids) : held.length ≤ ids.length := by
  have hsub : held.map (fun p => p.txHeader.id) ⊆ ids := by
    intro id hid
    obtain ⟨p, hp, rfl⟩ := List.mem_map.mp hid
    exact h p hp
  have hle := (List.subperm_of_subset hh.distinct hsub).length_le
  rwa [List.length_map] at hle

/-- Other queues, with the same list. -/
theorem of_queues (hh : Holds held s) (hq : s'.pendingQueues = s.pendingQueues) : Holds held s' :=
  ⟨hq.trans hh.queues, hh.proper, hh.distinct⟩

theorem erase (hh : Holds held s) (hq : s'.pendingQueues = queuesOf (held.erase p)) :
    Holds (held.erase p) s' where
  queues := hq
  proper q hmem := hh.proper q (List.mem_of_mem_erase hmem)
  distinct := hh.distinct.sublist (List.erase_sublist.map _)

/-- Whether an account is locked by another transaction. -/
theorem unlockedOrHead_iff (hh : Holds held s) (hp : p ∈ held) (ha : a ∈ p.enqueuedOn) :
    s.isAccountUnlockedOrHead a p.txHeader.id = true ↔ firstOn held a = some p := by
  unfold Executor.isAccountUnlockedOrHead
  rw [hh.queues]
  cases hf : firstOn held a with
  | none =>
      have hnot := List.find?_eq_none.mp hf p hp
      exact absurd ha (by simpa using hnot)
  | some q =>
      obtain ⟨later, hlater⟩ := queuesOf_of_some hf
      rw [hlater]
      simp only [List.head?_cons, Option.any_some, decide_eq_true_eq, Option.some.injEq]
      exact ⟨fun h => hh.eq_of_id (mem_of_first hf).1 hp h, fun h => by rw [h]⟩

theorem ready_iff (hh : Holds held s) (hp : p ∈ held) :
    s.isReadyToExecute p.txHeader.id p.enqueuedOn = true ↔
      (∀ a ∈ p.enqueuedOn, (s.accountStore a).isSome) ∧ AtHead held p := by
  unfold Executor.isReadyToExecute
  simp only [List.all_eq_true, Bool.and_eq_true]
  constructor
  · intro hall
    exact ⟨fun a ha => (hall a ha).1, fun a ha => (hh.unlockedOrHead_iff hp ha).mp (hall a ha).2⟩
  · rintro ⟨hstore, hhead⟩ a ha
    exact ⟨hstore a ha, (hh.unlockedOrHead_iff hp ha).mpr (hhead a ha)⟩

/-- Taking a transaction out of its queues. -/
theorem pop (hh : Holds held s) (hp : p ∈ held) (hhead : AtHead held p)
    (hne : p.enqueuedOn ≠ []) :
    s.popTransactionFromAccounts p.enqueuedOn p.txHeader.id =
      .ok (p, { s with pendingQueues := queuesOf (held.erase p) }) := by
  have hqueue : ∀ a, queue PendingTransaction.enqueuedOn held a =
      List.replicate (p.enqueuedOn.count a) p ++
        queue PendingTransaction.enqueuedOn (held.erase p) a := fun a =>
    queue_of_first hp (hhead a)
  refine (Executor.popTransactionFromAccounts_eq p
    (queue PendingTransaction.enqueuedOn (held.erase p)) hne fun a ha => ?_).trans ?_
  · have hpos : p.enqueuedOn.count a ≠ 0 := (List.count_pos_iff.mpr ha).ne'
    rw [hh.queues, queuesOf, hqueue a, if_neg (by simp [hpos])]
  · refine congrArg (fun q => Except.ok (p, { s with pendingQueues := q })) (funext fun a => ?_)
    by_cases ha : a ∈ p.enqueuedOn
    · rw [if_pos ha]
      rfl
    · rw [if_neg ha, hh.queues, queuesOf, queuesOf, hqueue a, List.count_eq_zero_of_not_mem ha]
      rfl

/-- The head of a queue is what can be dealt with on this account, if anything. -/
theorem getExecutableQueueHead_spec (hh : Holds held s) (a : ℕ) :
    (s.getExecutableQueueHead a = .ok none ∧
      ∀ p ∈ held, AtHead held p → p.Drainable →
        (∀ b ∈ p.enqueuedOn, (s.accountStore b).isSome) → a ∉ p.enqueuedOn) ∨
    ∃ p ∈ held, AtHead held p ∧ p.Drainable ∧ (∀ b ∈ p.enqueuedOn, (s.accountStore b).isSome) ∧
      a ∈ p.enqueuedOn ∧ s.getExecutableQueueHead a = .ok (some p) := by
  cases hf : firstOn held a with
  | none =>
      refine Or.inl ⟨?_, fun p hp _ _ _ => ?_⟩
      · unfold Executor.getExecutableQueueHead
        rw [hh.queues, queuesOf_of_none hf]
      · have hnot := List.find?_eq_none.mp hf p hp
        simpa using hnot
  | some p =>
      obtain ⟨later, hlater⟩ := queuesOf_of_some hf
      rw [← hh.queues] at hlater
      obtain ⟨hp, ha⟩ := mem_of_first hf
      -- only the head can be dealt with
      have honly : ∀ q, AtHead held q → a ∈ q.enqueuedOn → q = p := fun q hq haq =>
        Option.some.inj ((hq a haq).symm.trans hf)
      rcases (hh.proper p hp).drainable_or with hdrain | ⟨accounts, hl⟩
      · rw [getExecutableQueueHead_of_drainable hlater hdrain]
        by_cases hb : s.isReadyToExecute p.txHeader.id p.enqueuedOn = true
        · obtain ⟨hstore, hhead⟩ := (hh.ready_iff hp).mp hb
          exact Or.inr ⟨p, hp, hhead, hdrain, hstore, ha, by rw [if_pos hb]⟩
        · refine Or.inl ⟨by rw [if_neg hb], fun q hq hhead _ hstore haq => hb ?_⟩
          obtain rfl := honly q hhead haq
          exact (hh.ready_iff hq).mpr ⟨hstore, hhead⟩
      · refine Or.inl ⟨?_, fun q hq hhead hdrain _ haq => ?_⟩
        · unfold Executor.getExecutableQueueHead
          rw [hlater]
          dsimp only
          rw [hl]
        · obtain rfl := honly q hhead haq
          simp [PendingTransaction.Drainable, hl] at hdrain

end Holds

end Queues

/-! ## Enqueueing -/

section Enqueue

variable {cfg : Settings} {held : List PendingTransaction} {s s' : Executor}
  {digest txBytes : Bytes} {header : TransactionHeader} {accounts : List ℕ}
  {locality : TransactionLocality}

theorem pushBack_queuesOf (p : PendingTransaction) :
    Executor.pushBack p p.enqueuedOn (queuesOf held) = queuesOf (held ++ [p]) := by
  rw [Executor.pushBack_eq]
  funext a
  unfold queuesOf
  rw [queue_concat]
  by_cases ha : a ∈ p.enqueuedOn
  · have hne : p.enqueuedOn.count a ≠ 0 := (List.count_pos_iff.mpr ha).ne'
    by_cases hq : queue PendingTransaction.enqueuedOn held a = []
    · simp [ha, hq, hne]
    · simp [ha, hq]
  · simp [ha, List.count_eq_zero_of_not_mem ha]

/-- What is put into the queues. -/
theorem lockAndEnqueueTransaction_eq_ok
    (h : s.lockAndEnqueueTransaction digest txBytes header accounts locality = .ok s') :
    ∃ sbTx p, p = ⟨txBytes, header, sbTx, digest, accounts, locality⟩ ∧
      parseSmallbankPayload txBytes = some sbTx ∧ (∀ e, locality ≠ .others e) ∧
      s' = { s with
        pendingQueues := Executor.pushBack p p.enqueuedOn s.pendingQueues } := by
  unfold Executor.lockAndEnqueueTransaction at h
  split at h
  · cases h
  · rename_i sbTx hparse
    refine ⟨sbTx, _, rfl, hparse, ?_⟩
    cases locality with
    | others e => cases h
    | _ =>
        refine ⟨fun e he => (by cases he), ?_⟩
        exact (Except.ok.inj h).symm

/-- The accounts that a transaction is enqueued with are some of those that it names. -/
def Named (accounts : List ℕ) (sbTx : SmallBankTransaction) : TransactionLocality → Prop
  | .local => accounts = sbTx.requiredAccounts
  | .migrateOut owned _ _ => owned.Sublist sbTx.requiredAccounts
  | _ => True

theorem Holds.enqueue (hh : Holds held s)
    (hnamed : ∀ sbTx, parseSmallbankPayload txBytes = some sbTx → Named accounts sbTx locality)
    (hid : ∀ p ∈ held, p.txHeader.id ≠ header.id)
    (h : s.lockAndEnqueueTransaction digest txBytes header accounts locality = .ok s') :
    ∃ p : PendingTransaction, p.txHeader = header ∧ p.txBytes = txBytes ∧
      Holds (held ++ [p]) s' := by
  obtain ⟨sbTx, p, rfl, hparse, hothers, rfl⟩ := lockAndEnqueueTransaction_eq_ok h
  have hmine := hnamed sbTx hparse
  refine ⟨⟨txBytes, header, sbTx, digest, accounts, locality⟩, rfl, rfl, ?_, fun p hp => ?_, ?_⟩
  · rw [hh.queues]
    exact pushBack_queuesOf _
  · rcases List.mem_append.mp hp with hp | hp
    · exact hh.proper p hp
    · rw [List.mem_singleton.mp hp]
      refine ⟨hparse, fun hl => ?_, fun owned others dest hl => ?_, hothers⟩
      · obtain rfl : locality = .local := hl
        exact hmine
      · obtain rfl : locality = .migrateOut owned others dest := hl
        exact hmine
  · rw [List.map_append, List.nodup_append]
    refine ⟨hh.distinct, List.nodup_singleton _, fun id hmem id' hmem' => ?_⟩
    obtain ⟨p, hp, rfl⟩ := List.mem_map.mp hmem
    rw [List.map_singleton, List.mem_singleton] at hmem'
    rw [hmem']
    exact hid p hp

theorem executeSingleLocalTransaction_keeps
    (h : s.executeSingleLocalTransaction cfg digest txBytes header = .ok s') :
    s'.pendingQueues = s.pendingQueues ∧ s'.buffers = s.buffers := by
  unfold Executor.executeSingleLocalTransaction at h
  dsimp only at h
  split at h
  · cases h
    exact ⟨rfl, rfl⟩
  · obtain ⟨⟨store, success⟩, -, h⟩ := bind_eq_ok.mp h
    dsimp only at h
    split at h
    · split at h
      · cases h
        exact ⟨rfl, rfl⟩
      · cases h
        exact ⟨rfl, rfl⟩
    · cases h
      exact ⟨rfl, rfl⟩

theorem pendingQueues_executeMigrateOut {txId : TxID} {dest : ℕ}
    (h : Executor.executeMigrateOut txId dest accounts s = .ok s') :
    s'.pendingQueues = s.pendingQueues := by
  induction accounts generalizing s with
  | nil =>
      cases h
      rfl
  | cons account accounts ih =>
      unfold Executor.executeMigrateOut at h
      split at h
      · cases h
      · have hq := ih h
        exact hq

/-- Which accounts are sent is decided among those that the transaction names. -/
theorem named_localityOf (e : ℕ) (partition : Partition) (sbTx : SmallBankTransaction)
    (target : ℕ) :
    Named sbTx.requiredAccounts sbTx
      (localityOf e partition sbTx.requiredAccounts target) := by
  unfold localityOf
  dsimp only
  split
  · split
    · rfl
    · trivial
  · split
    · trivial
    · exact List.filter_sublist

/-- The accounts of a transaction with its locality. -/
def Scheduled.Named (tx : Scheduled × TransactionLocality) : Prop :=
  ∀ sbTx, parseSmallbankPayload tx.1.txBytes = some sbTx →
    Fusion.Named tx.1.requiredAccounts sbTx tx.2

/-- The next transaction of a batch is executed at once or put into the queues. -/
theorem Holds.handleTransaction {tx : Scheduled × TransactionLocality} (hh : Holds held s)
    (hnamed : Scheduled.Named tx) (hid : ∀ p ∈ held, p.txHeader.id ≠ tx.1.header.id)
    (h : s.handleTransactionByLocality cfg digest tx = .ok s') :
    Holds held s' ∨
      ∃ p : PendingTransaction, p.txHeader = tx.1.header ∧ p.txBytes = tx.1.txBytes ∧
        Holds (held ++ [p]) s' := by
  obtain ⟨tx, locality⟩ := tx
  unfold Executor.handleTransactionByLocality at h
  cases locality with
  | «local» =>
      dsimp only at h
      unfold Executor.handleLocalTransaction at h
      split at h
      · exact Or.inl (hh.of_queues (executeSingleLocalTransaction_keeps h).1)
      · exact Or.inr (hh.enqueue hnamed hid h)
  | migrateOut owned others dest =>
      dsimp only at h
      unfold Executor.handleMigrateOutTransaction at h
      split at h
      · split at h
        · cases h
        · exact Or.inl (hh.of_queues (pendingQueues_executeMigrateOut h))
      · -- it is enqueued on what it sends, with no required accounts
        have hsent : ∀ sbTx, parseSmallbankPayload tx.txBytes = some sbTx →
            Named [] sbTx (.migrateOut owned others dest) := hnamed
        exact Or.inr (hh.enqueue hsent hid h)
  | migrateIn accounts =>
      exact Or.inr (hh.enqueue hnamed hid h)
  | others e =>
      cases h
      exact Or.inl hh

/-- Loop 2 of `execute_batch`. -/
theorem Holds.handleAll {localities : List (Scheduled × TransactionLocality)}
    (hh : Holds held s) (hnamed : ∀ tx ∈ localities, Scheduled.Named tx)
    (hnodup : (localities.map fun tx => tx.1.header.id).Nodup)
    (hid : ∀ p ∈ held, p.txHeader.id ∉ localities.map fun tx => tx.1.header.id)
    (h : Executor.handleAll cfg digest localities s = .ok s') :
    ∃ held', Holds held' s' ∧ ∀ p ∈ held', p ∈ held ∨
      ∃ tx ∈ localities, p.txHeader = tx.1.header ∧ p.txBytes = tx.1.txBytes := by
  induction localities generalizing held s with
  | nil =>
      cases h
      exact ⟨held, hh, fun p hp => Or.inl hp⟩
  | cons tx localities ih =>
      rw [List.forall_mem_cons] at hnamed
      rw [List.map_cons, List.nodup_cons] at hnodup
      simp only [List.map_cons, List.mem_cons, not_or] at hid
      unfold Executor.handleAll at h
      obtain ⟨s₁, hfirst, h⟩ := bind_eq_ok.mp h
      rcases hh.handleTransaction hnamed.1 (fun p hp => (hid p hp).1) hfirst with
        hh₁ | ⟨q, hheader, hbytes, hh₁⟩
      · obtain ⟨held', hh', hmem⟩ := ih hh₁ hnamed.2 hnodup.2 (fun p hp => (hid p hp).2) h
        refine ⟨held', hh', fun p hp => (hmem p hp).imp_right ?_⟩
        rintro ⟨tx', htx', hp'⟩
        exact ⟨tx', List.mem_cons_of_mem _ htx', hp'⟩
      · have hid₁ : ∀ p ∈ held ++ [q],
            p.txHeader.id ∉ localities.map fun tx => tx.1.header.id := by
          intro p hp
          rcases List.mem_append.mp hp with hp | hp
          · exact (hid p hp).2
          · rw [List.mem_singleton.mp hp, hheader]
            exact hnodup.1
        obtain ⟨held', hh', hmem⟩ := ih hh₁ hnamed.2 hnodup.2 hid₁ h
        refine ⟨held', hh', fun p hp => ?_⟩
        rcases hmem p hp with hp' | ⟨tx', htx', hp'⟩
        · rcases List.mem_append.mp hp' with hp' | hp'
          · exact Or.inl hp'
          · rw [List.mem_singleton.mp hp']
            exact Or.inr ⟨tx, List.mem_cons_self, hheader, hbytes⟩
        · exact Or.inr ⟨tx', List.mem_cons_of_mem _ htx', hp'⟩

/-- The header is that of the bytes. -/
theorem header_static {partition : Partition} {transactions : List Bytes} {txs : List Scheduled}
    (h : scheduleStatic partition transactions = .ok txs) :
    ∀ tx ∈ txs, TransactionHeader.parse tx.txBytes = some tx.header := by
  induction transactions generalizing txs with
  | nil =>
      obtain rfl := Except.ok.inj h
      simp
  | cons txBytes transactions ih =>
      unfold scheduleStatic at h
      cases hheader : TransactionHeader.parse txBytes with
      | none =>
          rw [hheader] at h
          exact ih h
      | some header =>
          rw [hheader] at h
          obtain ⟨requiredAccounts, -, h₁⟩ := bind_eq_ok.mp h
          obtain ⟨target, -, h₂⟩ := bind_eq_ok.mp h₁
          obtain ⟨rest, hrest, h₃⟩ := bind_eq_ok.mp h₂
          obtain rfl := Except.ok.inj h₃
          exact List.forall_mem_cons.mpr ⟨hheader, ih hrest⟩

theorem header_dynamic {iter : Iteration} {bound i : ℕ} {partition localUpdates : Partition}
    {loads : List ℕ} {transactions : List Bytes} {txs : List Scheduled}
    (h : scheduleDynamic iter bound partition i localUpdates loads transactions = .ok txs) :
    ∀ tx ∈ txs, TransactionHeader.parse tx.txBytes = some tx.header := by
  induction transactions generalizing i localUpdates loads txs with
  | nil =>
      unfold scheduleDynamic at h
      obtain rfl := Except.ok.inj h
      simp
  | cons txBytes transactions ih =>
      rcases scheduleDynamic_cons h with ⟨-, hrest⟩ | ⟨header, requiredAccounts, votes, best,
        target, rest, hheader, -, -, -, -, -, hrest, rfl⟩
      · exact ih hrest
      · exact List.forall_mem_cons.mpr ⟨hheader, ih hrest⟩

theorem header_parseAndSchedule {iter : Iteration} {partition : Partition}
    {transactions : List Bytes} {txs : List Scheduled}
    (h : parseAndScheduleBatchTransactions cfg iter partition transactions = .ok txs) :
    ∀ tx ∈ txs, TransactionHeader.parse tx.txBytes = some tx.header := by
  unfold parseAndScheduleBatchTransactions at h
  split at h
  · exact header_dynamic h
  · exact header_static h

/-- The ids of what the scheduler returns. -/
theorem ids_parseAndSchedule {iter : Iteration} {partition : Partition}
    {transactions : List Bytes} {txs : List Scheduled}
    (h : parseAndScheduleBatchTransactions cfg iter partition transactions = .ok txs) :
    txs.map (fun tx => tx.header.id) = transactions.filterMap txIdOf := by
  have hsound := parseAndSchedule_sound h
  have hids : (txs.map Scheduled.txBytes).filterMap txIdOf =
      txs.map fun tx => tx.header.id := by
    rw [List.filterMap_map, ← List.filterMap_eq_map']
    refine List.filterMap_congr fun tx htx => ?_
    show txIdOf tx.txBytes = some tx.header.id
    unfold txIdOf
    rw [header_parseAndSchedule h tx htx]
    rfl
  rw [← hids, hsound.bytes, List.filterMap_filter]
  refine List.filterMap_congr fun tx _ => ?_
  unfold txIdOf
  cases TransactionHeader.parse tx with
  | none => rfl
  | some header => rfl

theorem named_localitiesOf {e : ℕ} {partition : Partition} {txs : List Scheduled}
    (h : ∀ tx ∈ txs, ∃ sbTx, parseSmallbankPayload tx.txBytes = some sbTx ∧
      tx.requiredAccounts = sbTx.requiredAccounts) :
    ∀ x ∈ localitiesOf e partition txs, Scheduled.Named x := by
  induction txs generalizing partition with
  | nil => simp [localitiesOf]
  | cons tx txs ih =>
      rw [List.forall_mem_cons] at h
      unfold localitiesOf
      rw [List.forall_mem_cons]
      refine ⟨fun sbTx hparse => ?_, ih h.2⟩
      obtain ⟨sbTx', hparse', hreq⟩ := h.1
      rw [hparse] at hparse'
      obtain rfl := Option.some.inj hparse'
      dsimp only
      rw [hreq]
      exact named_localityOf e partition sbTx tx.target

/-- `execute_batch` up to the call of `process_incoming_transfers`. -/
theorem Holds.batch {iter : Iteration} {transactions : List Bytes} {s₁ : Executor}
    {localities : List (Scheduled × TransactionLocality)} (hh : Holds held s)
    (hnodup : (transactions.filterMap txIdOf).Nodup)
    (hid : ∀ p ∈ held, p.txHeader.id ∉ transactions.filterMap txIdOf)
    (hbegin : s.beginBatch cfg iter transactions = .ok (localities, s₁))
    (hhandle : Executor.handleAll cfg digest localities s₁ = .ok s') :
    ∃ held', Holds held' s' ∧ ∀ p ∈ held', p ∈ held ∨ p.Of transactions := by
  unfold Executor.beginBatch at hbegin
  obtain ⟨txs, hparsed, hbegin⟩ := bind_eq_ok.mp hbegin
  obtain ⟨r, hlocalities, hbegin⟩ := bind_eq_ok.mp hbegin
  obtain ⟨-, rfl⟩ := scheduleLocalities_eq_ok.mp hlocalities
  obtain ⟨rfl, rfl⟩ := Prod.mk.inj (Except.ok.inj hbegin)
  have hfst : (localitiesOf s.executorId s.statesSchedulePartition txs).map Prod.fst = txs :=
    map_fst_localitiesOf _ _
  have hids : (localitiesOf s.executorId s.statesSchedulePartition txs).map
      (fun tx => tx.1.header.id) = transactions.filterMap txIdOf := by
    rw [← ids_parseAndSchedule hparsed]
    conv_rhs => rw [← hfst, List.map_map]
    rfl
  rw [← hids] at hnodup hid
  have hsound := parseAndSchedule_sound hparsed
  have hh₁ : Holds held
      { s with statesSchedulePartition := s.statesSchedulePartition.movedBy txs } :=
    hh.of_queues rfl
  obtain ⟨held', hh', hmem⟩ :=
    hh₁.handleAll (named_localitiesOf hsound.payload) hnodup hid hhandle
  refine ⟨held', hh', fun p hp => (hmem p hp).imp_right ?_⟩
  rintro ⟨x, hx, hheader, hbytes⟩
  have hmem : x.1 ∈ txs := by
    rw [← hfst]
    exact List.mem_map_of_mem hx
  refine ⟨?_, ?_⟩
  · rw [hbytes]
    have hbytesMem := List.mem_map_of_mem (f := Scheduled.txBytes) hmem
    rw [hsound.bytes] at hbytesMem
    exact List.mem_of_mem_filter hbytesMem
  · rw [hbytes, hheader]
    exact header_parseAndSchedule hparsed x.1 hmem

end Enqueue

/-! ## Transfers -/

section Transfers

variable {cfg : Settings} {held : List PendingTransaction} {s s' : Executor}
  {p : PendingTransaction} {txId : TxID}

theorem Holds.firstOn_of_enqueuedAtHead {a : ℕ} (hh : Holds held s) (hp : p ∈ held)
    (h : s.isEnqueuedAtHead a p.txHeader.id = .ok true) : firstOn held a = some p := by
  unfold Executor.isEnqueuedAtHead at h
  split at h
  · rename_i head later hq
    rw [hh.queues] at hq
    have hfirst := firstOn_of_queuesOf hq
    have hid := decide_eq_true_eq.mp (Except.ok.inj h)
    rw [hfirst, hh.eq_of_id (mem_of_first hfirst).1 hp hid]
  · cases h

theorem Holds.firstOn_of_atAllHeads {accounts : List ℕ} (hh : Holds held s) (hp : p ∈ held)
    (h : s.isAtAllHeads p.txHeader.id accounts = .ok true) :
    ∀ a ∈ accounts, firstOn held a = some p := by
  induction accounts with
  | nil => exact fun a ha => absurd ha List.not_mem_nil
  | cons account accounts ih =>
      unfold Executor.isAtAllHeads at h
      obtain ⟨b, hb, h⟩ := bind_eq_ok.mp h
      split at h
      · rename_i hbt
        subst hbt
        rw [List.forall_mem_cons]
        exact ⟨hh.firstOn_of_enqueuedAtHead hp hb, ih h⟩
      · cases h

/-- One iteration of the loop of `process_incoming_transfers` does nothing, or takes a
    `MigrateIn` from the head of its queues, with as many transfers as it waits for. -/
theorem Holds.processTransfers {unlocked : List ℕ} {r : List ℕ × Executor} (hh : Holds held s)
    (h : Executor.processTransfers cfg txId unlocked s = .ok r) :
    r = (unlocked, s) ∨ ∃ p ∈ held, p.txHeader.id = txId ∧ AtHead held p ∧
      (∃ accounts, p.locality = .migrateIn accounts ∧
        (s.drainedIncomingTransfers.get txId).length = accounts.length) ∧
      Holds (held.erase p) r.2 ∧
      r.2.buffers = (s.incomingTransfers, s.drainedIncomingTransfers.erase txId) := by
  unfold Executor.processTransfers at h
  split at h
  · cases h
  · rename_i first rest hget
    split at h
    · rename_i head later hqueue
      split at h
      · cases h
        exact Or.inl rfl
      · rename_i hid
        rw [not_not] at hid
        subst hid
        split at h
        · rename_i accounts hl
          split at h
          · cases h
            exact Or.inl rfl
          · rename_i hlen
            obtain ⟨atHeads, hheads, h⟩ := bind_eq_ok.mp h
            split at h
            · cases h
              exact Or.inl rfl
            · rename_i hb
              dsimp only at h
              split at h
              · -- executed
                obtain ⟨⟨pending, s₁⟩, hpop, h⟩ := bind_eq_ok.mp h
                obtain ⟨s₂, hexec, h⟩ := bind_eq_ok.mp h
                cases h
                rw [hh.queues] at hqueue
                obtain ⟨hmem, ha⟩ := mem_of_first (firstOn_of_queuesOf hqueue)
                have hon : head.enqueuedOn = head.requiredAccounts := by
                  simp only [PendingTransaction.enqueuedOn, hl]
                obtain rfl : atHeads = true := by simpa using hb
                have hhead : AtHead held head := fun a ha =>
                  hh.firstOn_of_atAllHeads hmem hheads a (hon ▸ ha)
                rw [← hon] at hpop
                have hok := Holds.pop (s := { s with
                  drainedIncomingTransfers := s.drainedIncomingTransfers.erase head.txHeader.id })
                  (hh.of_queues rfl) hmem hhead (List.ne_nil_of_mem ha)
                rw [hok] at hpop
                obtain ⟨-, rfl⟩ := Prod.mk.inj (Except.ok.inj hpop)
                obtain ⟨hqueues, hbuffers⟩ := executeSingleLocalTransaction_keeps hexec
                refine Or.inr ⟨head, hmem, rfl, hhead, ⟨accounts, hl, ?_⟩, hh.erase hqueues,
                  hbuffers⟩
                rw [hget]
                simpa using hlen
              · cases h
                exact Or.inl rfl
        · cases h
    · cases h
      exact Or.inl rfl

end Transfers

end DagBft.Fusion
