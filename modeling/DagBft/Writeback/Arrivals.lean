/-
  `process_incoming_transfers` and `process_incoming_writebacks` as steps of the site
  (`Writeback/Site`). Either something leaves its queues, or none of the buffered transfers
  or writebacks is for the head of a queue.
-/
import DagBft.Writeback.Calls

namespace DagBft.Writeback

open Worker Fusion Loan

namespace Executor

/-- A payment whose source state has arrived is executed. -/
theorem processTransfer_eq (clientReplyAddress : ℕ → Option SocketAddr)
    (unlockedAccounts : List ℕ) {s : Executor} {head : PendingTransaction}
    {queue : List PendingTransaction} {srcExecutorId : ℕ} {src dest : AccountState}
    (h : Arrived s head queue srcExecutorId src dest) :
    ∃ replies, processTransfer clientReplyAddress head.txHeader.id unlockedAccounts s =
      .ok (Fusion.Executor.extendSet unlockedAccounts [head.sbTx.destAccountId], { s with
        accountStore := Function.update s.accountStore head.sbTx.destAccountId
          (some (remotePay src dest head.sbTx.amount).2.1)
        accountLocks := fun a => if a ∈ [head.sbTx.destAccountId] then none else s.accountLocks a
        pendingQueues := removeEmpty (Function.update s.pendingQueues head.sbTx.destAccountId
          (some queue)) [head.sbTx.destAccountId]
        executed := s.executed ++ [head.txHeader.id]
        localTransfers := s.localTransfers.erase head.txHeader.id
        txStateWriteback := s.txStateWriteback ++
          [⟨writebackOf head (remotePay src dest head.sbTx.amount), srcExecutorId⟩]
        distributedDestAccounts :=
          Function.update s.distributedDestAccounts head.txHeader.id none
        txClientReply := replies }) := by
  obtain ⟨hlookup, hqueue, hlocality, htransfer, hstore⟩ := h
  unfold processTransfer
  simp only [hlookup, hqueue, ne_eq, not_true_eq_false, if_false, htransfer, hlocality,
    updateAccount, AccountStore.update, hstore, Option.map_some]
  have hkeep : Function.update s.accountStore head.sbTx.destAccountId (some dest) =
      s.accountStore := Function.update_eq_self_iff.mpr hstore.symm
  unfold remotePay writebackOf
  by_cases hle : head.sbTx.amount.toInt64 ≤ src.checkingBalance
  · simp only [hle, decide_true, if_true, bind, Except.bind]
    obtain ⟨replies, hreply⟩ := reply_eq clientReplyAddress { s with
      accountStore := Function.update s.accountStore head.sbTx.destAccountId
        (some (dest.executeSendPaymentCredit head.sbTx.amount)) } head.batchDigest head.txHeader
      true head.sbTx.accountId
      (some { src with checkingBalance := src.checkingBalance - head.sbTx.amount.toInt64 })
    rw [hreply]
    exact ⟨replies, rfl⟩
  · simp only [hle, decide_false, Bool.false_eq_true, if_false, bind, Except.bind, hkeep]
    obtain ⟨replies, hreply⟩ := reply_eq clientReplyAddress s head.batchDigest head.txHeader
      false head.sbTx.accountId (some src)
    rw [hreply]
    exact ⟨replies, rfl⟩

end Executor

namespace Course

variable {partition : Partition} {σ : Course partition} {h h' : State ℕ ℕ} {e i j a : ℕ}
  {s s' : Executor} {restTransfers : Multiset StateTransferRequest}
  {restWritebacks : Multiset StateWritebackRequest} {txId : TxID}
  {clientReplyAddress : ℕ → Option SocketAddr}

/-! ## Transfers and writebacks that have arrived -/

/-- A payment at the head here whose transaction has this id. -/
def Ready (σ : Course partition) (h : State ℕ ℕ) (e : ℕ) (txId : TxID) : Prop :=
  ∃ j ∈ h.held e, σ.Split j ∧ σ.id j = txId ∧ h.Head σ.plan e j

/-- Either nothing happens, and the payment is not ready, or a transaction leaves its queues. -/
def Outcome (σ : Course partition) (h : State ℕ ℕ) (e : ℕ)
    (restTransfers : Multiset StateTransferRequest)
    (restWritebacks : Multiset StateWritebackRequest) (buffered : Executor → TxID → Prop)
    (txId : TxID) (unlockedAccounts : List ℕ) (s : Executor)
    (result : Except Panic (List ℕ × Executor)) : Prop :=
  result = .ok (unlockedAccounts, s) ∧ ¬ σ.Ready h e txId ∨
    ∃ j account s', result = .ok (Fusion.Executor.extendSet unlockedAccounts [account], s') ∧
      j ∈ h.held e ∧ σ.Advance h e restTransfers restWritebacks (h.finish σ.plan e j) s' ∧
      ∀ id, id ≠ txId → buffered s id → buffered s' id

/-- The queue of an account without the first transaction. -/
theorem queues_pop (hr : σ.Running h e restTransfers restWritebacks s) (hj : j ∈ h.held e)
    (hhead : h.Head σ.plan e j) (hpart : part σ.plan e j = [a]) {rest : List ℕ}
    (hq : h.queue σ.plan e a = j :: rest) :
    Executor.removeEmpty (Function.update s.pendingQueues a (some (rest.map (σ.pending e)))) [a] =
      σ.queues (h.finish σ.plan e j) e := by
  have hrest : (h.finish σ.plan e j).queue σ.plan e a = rest := by
    have hfinish := State.queue_finish (a := a) hr.inv hj hhead
    rw [hq, if_pos (hpart ▸ List.mem_singleton_self a)] at hfinish
    exact (List.cons.inj hfinish).2.symm
  refine queues_of_removeEmpty [a] (h.finish σ.plan e j) (fun b hb => ?_) fun b hb => ?_
  · obtain rfl := List.mem_singleton.mp hb
    rw [Function.update_self, hrest]
  · have hne : b ≠ a := fun heq => hb (heq ▸ List.mem_singleton_self _)
    rw [Function.update_of_ne hne, hr.site.queues, queues_finish hr.inv hj hhead, hpart]
    exact if_neg hb

theorem Running.processTransfer (clientReplyAddress : ℕ → Option SocketAddr)
    (unlockedAccounts : List ℕ) (hr : σ.Running h e restTransfers restWritebacks s)
    (hmem : txId ∈ s.localTransfers) :
    σ.Outcome h e restTransfers restWritebacks (fun s id => id ∈ s.localTransfers) txId
      unlockedAccounts s
      (Executor.processTransfer clientReplyAddress txId unlockedAccounts s) := by
  cases hdest : s.distributedDestAccounts txId with
  | none =>
      refine Or.inl ⟨?_, ?_⟩
      · unfold Executor.processTransfer
        rw [hdest]
      · rintro ⟨j, hj, hs, rfl, -⟩
        -- a payment whose transfer is here would be in the reverse lookup
        obtain ⟨t, ht⟩ := Option.isSome_iff_exists.mp (AList.lookup_isSome.mpr hmem)
        obtain ⟨-, -, htarget⟩ := hr.arrived hs.1 ht
        have hsome := (hr.site.dests (σ.id j) (σ.dest j)).mpr ⟨j, hj, hs, htarget, rfl, rfl⟩
        rw [hdest] at hsome
        cases hsome
  | some destAccount =>
      obtain ⟨j, hj, hs, ht, rfl, rfl⟩ := (hr.site.dests _ _).mp hdest
      have hpart : part σ.plan e j = [σ.dest j] := by
        rw [← ht]
        exact part_dest hs
      have hin : j ∈ h.queue σ.plan e (σ.dest j) :=
        State.mem_queue.mpr ⟨hj, hpart ▸ List.mem_singleton_self _⟩
      rcases hr.head_cases (σ.dest j) with hnone | ⟨i, rest, hq, hi, -, hsome⟩
      · rw [hr.site.queues, queues, if_neg (List.ne_nil_of_mem hin)] at hnone
        cases hnone
      by_cases hid : i = j
      · subst hid
        have hhead := hr.head_of_split hs hq
        obtain ⟨t, hlookup⟩ := Option.isSome_iff_exists.mp (AList.lookup_isSome.mpr hmem)
        obtain ⟨hsent, rfl, -⟩ := hr.arrived hs.1 hlookup
        obtain ⟨-, hlent, -⟩ := mem_sent.mp hsent
        have harrived : Arrived s (σ.pending e i) (rest.map (σ.pending e)) (σ.home (σ.src i))
            (σ.state i (σ.src i)) (σ.state i (σ.dest i)) :=
          ⟨hdest, hsome, ht ▸ locality_dest hs, hlookup,
            hr.store_eq hj hhead (hpart ▸ List.mem_singleton_self _)⟩
        obtain ⟨replies, hok⟩ :=
          Executor.processTransfer_eq clientReplyAddress unlockedAccounts harrived
        have hpop := queues_pop hr hj hhead hpart hq
        refine Or.inr ⟨i, σ.dest i, _, hok, hj, .of_step (.run hj ht hhead ?_ ?_) rfl ?_, ?_⟩
        · intro e' hne hp
          rcases home_of_part hp with rfl | rfl
          · exact hlent
          · exact absurd ht hne
        · intro halone
          exact absurd (halone _ (part_of_split hs)) hs.2
        · have hfinish := hr.finish_dest hj hs ht hhead hlookup replies
          rw [← hpop] at hfinish
          exact hfinish
        · intro id hne hid
          exact AList.mem_erase.mpr ⟨hne, hid⟩
      · have hne : (σ.pending e i).txHeader.id ≠ σ.id j := fun heq =>
          hid (id_injective (lt_of_part (hr.inv.part e i hi)) hs.1 heq)
        refine Or.inl ⟨?_, ?_⟩
        · unfold Executor.processTransfer
          simp only [hdest, hsome, if_pos hne]
        · rintro ⟨k, hk, hsk, hidk, hhead⟩
          obtain rfl := id_injective hsk.1 hs.1 hidk
          have hfirst := (State.head_iff hr.inv hk).mp hhead (σ.dest k)
            (hpart ▸ List.mem_singleton_self _)
          rw [hq] at hfirst
          exact hid (Option.some.inj hfirst)

/-- A writeback is always for the first transaction on its account. -/
theorem Running.processWriteback (unlockedAccounts : List ℕ)
    (hr : σ.Running h e restTransfers restWritebacks s) (hmem : txId ∈ s.localWritebacks) :
    σ.Outcome h e restTransfers restWritebacks (fun s id => id ∈ s.localWritebacks) txId
      unlockedAccounts s (Executor.processWriteback txId unlockedAccounts s) := by
  obtain ⟨w, hw⟩ := Option.isSome_iff_exists.mp (AList.lookup_isSome.mpr hmem)
  obtain ⟨hlocal, hid⟩ := hr.site.keyed.localWritebacks.lookup_eq_some.mp hw
  have hin : (⟨w, s.executorId⟩ : StateWritebackRequest) ∈
      (σ.returned h).val.map σ.writebackOf := by
    rw [← hr.writebacks]
    exact Multiset.mem_add.mpr (Or.inl (mem_writebacks_of_local hlocal))
  obtain ⟨j, hret, heq⟩ := Multiset.mem_map.mp hin
  obtain rfl : σ.id j = txId := by
    rw [← hid]
    exact congrArg (fun r => r.stateWriteback.txId) heq
  obtain ⟨hs, hlent, hran⟩ := mem_returned.mp hret
  obtain ⟨-, rfl, rfl⟩ := hr.came_back hs.1 hw
  obtain ⟨hj, htarget, hhead⟩ := hr.inv.lent _ j hlent
  have hpart := part_src hs
  have hfirst := (State.head_iff hr.inv hj).mp hhead (σ.src j)
    (hpart ▸ List.mem_singleton_self _)
  obtain ⟨rest, hq⟩ := List.head?_eq_some_iff.mp hfirst
  rcases hr.head_cases (σ.src j) with hnone | ⟨i, rest', hq', -, -, hsome⟩
  · rw [hr.site.queues, queues, if_neg (by rw [hq]; exact List.cons_ne_nil _ _)] at hnone
    cases hnone
  obtain ⟨rfl, rfl⟩ := List.cons.inj (hq.symm.trans hq')
  have hstore : (s.accountStore (σ.src j)).isSome = true := by
    rw [hr.store_eq hj hhead (hpart ▸ List.mem_singleton_self _)]
    rfl
  have hfinish := hr.finish_source hlent hw
  rw [← queues_pop hr hj hhead hpart hq] at hfinish
  refine Or.inr ⟨j, σ.src j, _, ?_, hj, .of_step (.settle hlent hran) rfl hfinish, ?_⟩
  · unfold Executor.processWriteback
    have hkey : (σ.pending (σ.home (σ.src j)) j).txHeader.id = σ.id j := rfl
    have hsrc : (σ.writebackOf j).stateWriteback.srcAccountId = σ.src j := rfl
    simp only [hw, hsrc, hsome, hkey, ne_eq, not_true_eq_false, if_false, hstore, if_true]
    rfl
  · intro id hne hid'
    exact AList.mem_erase.mpr ⟨hne, hid'⟩

/-- The loops over what has arrived. -/
theorem Running.forEach (body : TxID → List ℕ → Executor → Except Panic (List ℕ × Executor))
    (buffered : Executor → TxID → Prop)
    (hbody : ∀ {h : State ℕ ℕ} {s : Executor} (txId : TxID) (unlockedAccounts : List ℕ),
      σ.Running h e restTransfers restWritebacks s → buffered s txId →
        σ.Outcome h e restTransfers restWritebacks buffered txId unlockedAccounts s
          (body txId unlockedAccounts s))
    {txIds : List TxID} (hnodup : txIds.Nodup) (unlockedAccounts : List ℕ)
    (hr : σ.Running h e restTransfers restWritebacks s) (hbuf : ∀ id ∈ txIds, buffered s id) :
    ∃ unlockedAccounts' s' h', Executor.forEach body txIds unlockedAccounts s =
        .ok (unlockedAccounts', s') ∧ σ.Advance h e restTransfers restWritebacks h' s' ∧
      unlockedAccounts'.length + 2 * (h'.held e).length ≤
        unlockedAccounts.length + 2 * (h.held e).length ∧
      ((h'.held e).length < (h.held e).length ∨ ∀ id ∈ txIds, ¬ σ.Ready h e id) := by
  induction txIds generalizing unlockedAccounts s h with
  | nil =>
      exact ⟨unlockedAccounts, s, h, rfl, hr.advance, le_rfl,
        Or.inr fun id hid => absurd hid List.not_mem_nil⟩
  | cons txId txIds ih =>
      rw [List.nodup_cons] at hnodup
      rw [List.forall_mem_cons] at hbuf
      rcases hbody txId unlockedAccounts hr hbuf.1 with
        ⟨hok, hnot⟩ | ⟨j, account, s₁, hok, hj, had, hkeep⟩
      · obtain ⟨unlockedAccounts', s', h', hok', had', hle, hor⟩ :=
          ih hnodup.2 unlockedAccounts hr hbuf.2
        refine ⟨unlockedAccounts', s', h', ?_, had', hle, hor.imp_right fun hall => ?_⟩
        · rw [Executor.forEach, hok]
          exact hok'
        · rw [List.forall_mem_cons]
          exact ⟨hnot, hall⟩
      · have hlen := length_held_finish (σ := σ) hj
        have hextend := Fusion.Course.length_extendSet unlockedAccounts [account]
        rw [List.length_singleton] at hextend
        obtain ⟨unlockedAccounts', s', h', hok', had', hle, -⟩ :=
          ih hnodup.2 (Fusion.Executor.extendSet unlockedAccounts [account]) had.running
            fun id hid => hkeep id (fun heq => hnodup.1 (heq ▸ hid)) (hbuf.2 id hid)
        have hmono := had'.length_held_le
        refine ⟨unlockedAccounts', s', h', ?_, had.trans had', by omega, Or.inl (by omega)⟩
        rw [Executor.forEach, hok]
        exact hok'

theorem Running.nodup_transfers (hr : σ.Running h e restTransfers restWritebacks s) :
    s.transfers.Nodup := by
  have hnodup : (s.transfers + restTransfers).Nodup := by
    rw [hr.transfers]
    refine Multiset.Nodup.map_on (fun i hi j hj heq => ?_) (σ.sent h).nodup
    exact id_injective (mem_sent.mp hi).1.1 (mem_sent.mp hj).1.1
      (congrArg (fun r => r.stateTransfer.txId) heq)
  exact (Multiset.nodup_add.mp hnodup).1

theorem Running.nodup_writebacks (hr : σ.Running h e restTransfers restWritebacks s) :
    s.writebacks.Nodup := by
  have hnodup : (s.writebacks + restWritebacks).Nodup := by
    rw [hr.writebacks]
    refine Multiset.Nodup.map_on (fun i hi j hj heq => ?_) (σ.returned h).nodup
    exact id_injective (mem_returned.mp hi).1.1 (mem_returned.mp hj).1.1
      (congrArg (fun r => r.stateWriteback.txId) heq)
  exact (Multiset.nodup_add.mp hnodup).1

/-- There is one transfer for each payment. -/
theorem Running.transfer_unique (hr : σ.Running h e restTransfers restWritebacks s)
    {r r' : StateTransferRequest} (hmem : r ∈ s.transfers) (hmem' : r' ∈ s.transfers)
    (hid : r.stateTransfer.txId = r'.stateTransfer.txId) : r = r' := by
  have hin : r ∈ (σ.sent h).val.map σ.transferOf := by
    rw [← hr.transfers]
    exact Multiset.mem_add.mpr (Or.inl hmem)
  obtain ⟨j, hj, rfl⟩ := Multiset.mem_map.mp hin
  exact (hr.mem_transfers (mem_sent.mp hj).1.1 hmem' hid.symm).2.symm

theorem Running.writeback_unique (hr : σ.Running h e restTransfers restWritebacks s)
    {r r' : StateWritebackRequest} (hmem : r ∈ s.writebacks) (hmem' : r' ∈ s.writebacks)
    (hid : r.stateWriteback.txId = r'.stateWriteback.txId) : r = r' := by
  have hin : r ∈ (σ.returned h).val.map σ.writebackOf := by
    rw [← hr.writebacks]
    exact Multiset.mem_add.mpr (Or.inl hmem)
  obtain ⟨j, hj, rfl⟩ := Multiset.mem_map.mp hin
  exact (hr.mem_writebacks (mem_returned.mp hj).1.1 hmem' hid.symm).2.symm

/-- `process_incoming_transfers` takes what has arrived. -/
theorem Running.takeTransfers (hr : σ.Running h e restTransfers restWritebacks s) :
    σ.Running h e restTransfers restWritebacks (takeTransfers s) := by
  have hsite := hr.site
  have hkeyed := hsite.keyed
  have hdisjoint : ∀ id ∈ s.incomingTransfers, id ∉ s.localTransfers := by
    refine hkeyed.incomingTransfers.disjoint hkeyed.localTransfers
      (f := fun t => (⟨t, s.executorId⟩ : StateTransferRequest)) ?_ fun t ht t' ht' hid => ?_
    · have hnodup := hr.nodup_transfers
      unfold Executor.transfers at hnodup
      exact Multiset.coe_nodup.mp (Multiset.nodup_add.mp hnodup).2.1
    · refine hr.transfer_unique ?_ (mem_transfers_of_local ht') hid
      refine Multiset.mem_add.mpr (Or.inr (Multiset.mem_coe.mpr ?_))
      exact List.mem_map_of_mem (List.mem_append_left _ ht)
  refine ⟨hr.inv, ?_, ?_, hr.writebacks⟩
  · exact ⟨hsite.executorId, hsite.statesPartition, hsite.store, hsite.locks, hsite.queues,
      hsite.dests, hsite.outgoing, hsite.nodup_executed, hsite.mem_executed,
      hsite.nodup_writtenBack, hsite.mem_writtenBack,
      ⟨AList.Keyed.empty, hkeyed.incomingTransfers.union hkeyed.localTransfers,
        hkeyed.incomingWritebacks, hkeyed.localWritebacks⟩⟩
  · rw [← hr.transfers]
    unfold Executor.transfers Writeback.takeTransfers
    dsimp only
    rw [AList.values_union hdisjoint]
    rfl

theorem Running.takeWritebacks (hr : σ.Running h e restTransfers restWritebacks s) :
    σ.Running h e restTransfers restWritebacks (takeWritebacks s) := by
  have hsite := hr.site
  have hkeyed := hsite.keyed
  have hdisjoint : ∀ id ∈ s.incomingWritebacks, id ∉ s.localWritebacks := by
    refine hkeyed.incomingWritebacks.disjoint hkeyed.localWritebacks
      (f := fun w => (⟨w, s.executorId⟩ : StateWritebackRequest)) ?_ fun w hw w' hw' hid => ?_
    · have hnodup := hr.nodup_writebacks
      unfold Executor.writebacks at hnodup
      exact Multiset.coe_nodup.mp (Multiset.nodup_add.mp hnodup).2.1
    · refine hr.writeback_unique ?_ (mem_writebacks_of_local hw') hid
      refine Multiset.mem_add.mpr (Or.inr (Multiset.mem_coe.mpr ?_))
      exact List.mem_map_of_mem (List.mem_append_left _ hw)
  refine ⟨hr.inv, ?_, hr.transfers, ?_⟩
  · exact ⟨hsite.executorId, hsite.statesPartition, hsite.store, hsite.locks, hsite.queues,
      hsite.dests, hsite.outgoing, hsite.nodup_executed, hsite.mem_executed,
      hsite.nodup_writtenBack, hsite.mem_writtenBack,
      ⟨hkeyed.incomingTransfers, hkeyed.localTransfers, AList.Keyed.empty,
        hkeyed.incomingWritebacks.union hkeyed.localWritebacks⟩⟩
  · rw [← hr.writebacks]
    unfold Executor.writebacks Writeback.takeWritebacks
    dsimp only
    rw [AList.values_union hdisjoint]
    rfl

/-- What the executor holds back are transactions of the sequence. -/
theorem Running.length_held_le (hr : σ.Running h e restTransfers restWritebacks s) :
    (h.held e).length ≤ σ.tasks.length := by
  have hsub : h.held e ⊆ List.range σ.tasks.length := fun j hj =>
    List.mem_range.mpr (lt_of_part (hr.inv.part e j hj))
  have hle := (List.subperm_of_subset (hr.inv.nodup e) hsub).length_le
  rwa [List.length_range] at hle

/-- `process_incoming_transfers`: what is ready leaves its queues. -/
theorem Running.processIncomingTransfers (clientReplyAddress : ℕ → Option SocketAddr)
    (iter : Iteration) (hfuel : 2 * σ.tasks.length < iter.fuel)
    (hr : σ.Running h e restTransfers restWritebacks s) :
    ∃ s' h', s.processIncomingTransfers clientReplyAddress iter = .ok s' ∧
      σ.Advance h e restTransfers restWritebacks h' s' ∧
      ((h'.held e).length < (h.held e).length ∨
        ∀ id ∈ (Writeback.takeTransfers s).localTransfers, ¬ σ.Ready h e id) := by
  have hperm := iter.txIds_perm (Writeback.takeTransfers s).localTransfers.keys
  have hmem : ∀ id, id ∈ iter.txIds (Writeback.takeTransfers s).localTransfers.keys ↔
      id ∈ (Writeback.takeTransfers s).localTransfers := fun id =>
    hperm.mem_iff.trans AList.mem_keys.symm
  obtain ⟨unlockedAccounts, s₁, h₁, hok, had, hle, hor⟩ := Running.forEach
    (Executor.processTransfer clientReplyAddress) (fun s id => id ∈ s.localTransfers)
    (fun txId unlockedAccounts hr hmem =>
      hr.processTransfer clientReplyAddress unlockedAccounts hmem)
    (hperm.nodup_iff.mpr (AList.keys_nodup _)) [] hr.takeTransfers fun id hid => (hmem id).mp hid
  have hN := hr.length_held_le
  have hmono := had.length_held_le
  rw [List.length_nil] at hle
  obtain ⟨s', h', hok', had'⟩ := had.running.drainPendingQueues clientReplyAddress iter iter.fuel
    0 unlockedAccounts (by omega) (by omega)
  have hmono' := had'.length_held_le
  refine ⟨s', h', ?_, had.trans had', hor.imp (fun hlt => by omega) fun hall id hid => ?_⟩
  · rw [processIncomingTransfers_eq, hok]
    exact hok'
  · exact hall id ((hmem id).mpr hid)

/-- `process_incoming_writebacks`: the same for what has come back. -/
theorem Running.processIncomingWritebacks (clientReplyAddress : ℕ → Option SocketAddr)
    (iter : Iteration) (hfuel : 2 * σ.tasks.length < iter.fuel)
    (hr : σ.Running h e restTransfers restWritebacks s) :
    ∃ s' h', s.processIncomingWritebacks clientReplyAddress iter = .ok s' ∧
      σ.Advance h e restTransfers restWritebacks h' s' ∧
      ((h'.held e).length < (h.held e).length ∨
        ∀ id ∈ (Writeback.takeWritebacks s).localWritebacks, ¬ σ.Ready h e id) := by
  have hperm := iter.txIds_perm (Writeback.takeWritebacks s).localWritebacks.keys
  have hmem : ∀ id, id ∈ iter.txIds (Writeback.takeWritebacks s).localWritebacks.keys ↔
      id ∈ (Writeback.takeWritebacks s).localWritebacks := fun id =>
    hperm.mem_iff.trans AList.mem_keys.symm
  obtain ⟨unlockedAccounts, s₁, h₁, hok, had, hle, hor⟩ := Running.forEach
    Executor.processWriteback (fun s id => id ∈ s.localWritebacks)
    (fun txId unlockedAccounts hr hmem => hr.processWriteback unlockedAccounts hmem)
    (hperm.nodup_iff.mpr (AList.keys_nodup _)) [] hr.takeWritebacks fun id hid => (hmem id).mp hid
  have hN := hr.length_held_le
  have hmono := had.length_held_le
  rw [List.length_nil] at hle
  obtain ⟨s', h', hok', had'⟩ := had.running.drainPendingQueues clientReplyAddress iter iter.fuel
    0 unlockedAccounts (by omega) (by omega)
  have hmono' := had'.length_held_le
  refine ⟨s', h', ?_, had.trans had', hor.imp (fun hlt => by omega) fun hall id hid => ?_⟩
  · rw [processIncomingWritebacks_eq, hok]
    exact hok'
  · exact hall id ((hmem id).mpr hid)

end Course

end DagBft.Writeback
