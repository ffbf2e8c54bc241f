/-
  One executor of the writeback design as a site of the loans (`Writeback/Course`). `Site`
  says what its queues, locks, accounts and logs are in a state of the loans, `Running` adds
  the messages that are on their way. Each step of the site is a change of the executor:
  it takes a transaction, sends the state of an account, or is through with a transaction.
-/
import DagBft.Writeback.Course

namespace DagBft.Writeback

open Worker Fusion Loan

namespace Executor

/-- The transfers that the executor has to send or has received and not consumed. -/
def transfers (s : Executor) : Multiset StateTransferRequest :=
  (s.txSendState : Multiset StateTransferRequest) +
    ((s.incomingTransfers.values ++ s.localTransfers.values).map fun t =>
      (⟨t, s.executorId⟩ : StateTransferRequest) : List StateTransferRequest)

/-- The writebacks that the executor has to send or has received and not consumed. -/
def writebacks (s : Executor) : Multiset StateWritebackRequest :=
  (s.txStateWriteback : Multiset StateWritebackRequest) +
    ((s.incomingWritebacks.values ++ s.localWritebacks.values).map fun w =>
      (⟨w, s.executorId⟩ : StateWritebackRequest) : List StateWritebackRequest)

/-- The buffers are by transaction. -/
structure Keyed (s : Executor) : Prop where
  incomingTransfers : s.incomingTransfers.Keyed StateTransfer.txId
  localTransfers : s.localTransfers.Keyed StateTransfer.txId
  incomingWritebacks : s.incomingWritebacks.Keyed StateWritebackArrival.txId
  localWritebacks : s.localWritebacks.Keyed StateWritebackArrival.txId

end Executor

namespace Course

variable {partition : Partition} (σ : Course partition)

/-- The queues of the executor. -/
def queues (h : State ℕ ℕ) (e : ℕ) : PendingQueues := fun a =>
  if h.queue σ.plan e a = [] then none else some ((h.queue σ.plan e a).map (σ.pending e))

/-- The payments whose source account is on its way to the executor of the destination. -/
def sent (h : State ℕ ℕ) : Finset ℕ := (Finset.range σ.tasks.length).filter fun j =>
  σ.Split j ∧ j ∈ h.lent (σ.home (σ.src j)) ∧ ¬ h.Done (σ.plan.target j) j

/-- The payments whose source account is on its way back. -/
def returned (h : State ℕ ℕ) : Finset ℕ := (Finset.range σ.tasks.length).filter fun j =>
  σ.Split j ∧ j ∈ h.lent (σ.home (σ.src j)) ∧ h.Done (σ.plan.target j) j

/-- The executor is the site `e`. -/
structure Site (h : State ℕ ℕ) (e : ℕ) (s : Executor) : Prop where
  executorId : s.executorId = e
  statesPartition : s.statesPartition = partition
  store : s.accountStore = fun a => if partition a = some e then σ.value (h.front a) a else none
  locks : s.accountLocks = fun a => if σ.home a = e then (h.lock a).map σ.id else none
  queues : s.pendingQueues = σ.queues h e
  dests : ∀ id a, s.distributedDestAccounts id = some a ↔
    ∃ j ∈ h.held e, σ.Split j ∧ σ.plan.target j = e ∧ σ.id j = id ∧ σ.dest j = a
  outgoing : ∀ id, (s.outgoingStatesBuffer id).isSome ↔ ∃ j ∈ h.lent e, σ.id j = id
  nodup_executed : s.executed.Nodup
  mem_executed : ∀ id, id ∈ s.executed ↔
    ∃ j < σ.tasks.length, σ.plan.target j = e ∧ h.Done e j ∧ σ.id j = id
  nodup_writtenBack : s.writtenBack.Nodup
  mem_writtenBack : ∀ id, id ∈ s.writtenBack ↔
    ∃ j, σ.Split j ∧ σ.home (σ.src j) = e ∧ h.Done e j ∧ σ.id j = id
  keyed : s.Keyed

/-- The executor is the site `e`, and the messages are where they have to be. -/
structure Running (h : State ℕ ℕ) (e : ℕ) (transfers : Multiset StateTransferRequest)
    (writebacks : Multiset StateWritebackRequest) (s : Executor) : Prop where
  inv : State.Inv σ.plan h
  site : σ.Site h e s
  transfers : s.transfers + transfers = (σ.sent h).val.map σ.transferOf
  writebacks : s.writebacks + writebacks = (σ.returned h).val.map σ.writebackOf

variable {σ} {h : State ℕ ℕ} {e e' i j a : ℕ} {s s' : Executor}
  {restTransfers : Multiset StateTransferRequest} {restWritebacks : Multiset StateWritebackRequest}

theorem mem_sent : j ∈ σ.sent h ↔
    σ.Split j ∧ j ∈ h.lent (σ.home (σ.src j)) ∧ ¬ h.Done (σ.plan.target j) j := by
  unfold sent
  rw [Finset.mem_filter, Finset.mem_range]
  exact and_iff_right_of_imp fun hs => hs.1.1

theorem mem_returned : j ∈ σ.returned h ↔
    σ.Split j ∧ j ∈ h.lent (σ.home (σ.src j)) ∧ h.Done (σ.plan.target j) j := by
  unfold returned
  rw [Finset.mem_filter, Finset.mem_range]
  exact and_iff_right_of_imp fun hs => hs.1.1

/-! ## What is on its way -/

/-- Who else has a part in a payment lends the source account. -/
theorem part_of_split (h : σ.Split j) : part σ.plan (σ.home (σ.src j)) j ≠ [] := by
  rw [part_src h]
  exact List.cons_ne_nil _ _

theorem part_target_of_split (h : σ.Split j) : part σ.plan (σ.plan.target j) j ≠ [] := by
  rw [target_plan, part_dest h]
  exact List.cons_ne_nil _ _

/-- A payment whose source account was not lent has not been executed. -/
theorem not_done_of_notMem (hi : State.Inv σ.plan h) (hj : j ∈ h.held e) (he : σ.plan.target j ≠ e)
    (hnew : j ∉ h.lent e) : ¬ h.Done (σ.plan.target j) j := by
  intro hd
  rcases hi.ran j hd e (Ne.symm he) (hi.part e j hj) with hl | hdone
  · exact hnew hl
  · exact hdone.2 hj

theorem sent_hold : σ.sent (h.hold σ.plan e) = σ.sent h := by
  ext j
  rw [mem_sent, mem_sent, State.done_hold]
  rfl

theorem returned_hold : σ.returned (h.hold σ.plan e) = σ.returned h := by
  ext j
  rw [mem_returned, mem_returned, State.done_hold]
  rfl

theorem done_target_skip (ht : part σ.plan e (h.taken e) = []) (hs : σ.Split j) :
    (h.skip e).Done (σ.plan.target j) j ↔ h.Done (σ.plan.target j) j := by
  rw [State.done_skip]
  refine or_iff_left ?_
  rintro ⟨he, rfl, -⟩
  rw [← he] at ht
  exact part_target_of_split hs (by rw [he] at ht ⊢; exact ht)

theorem sent_skip (ht : part σ.plan e (h.taken e) = []) : σ.sent (h.skip e) = σ.sent h := by
  ext j
  rw [mem_sent, mem_sent]
  exact and_congr_right fun hs => and_congr_right fun _ => not_congr (done_target_skip ht hs)

theorem returned_skip (ht : part σ.plan e (h.taken e) = []) :
    σ.returned (h.skip e) = σ.returned h := by
  ext j
  rw [mem_returned, mem_returned]
  exact and_congr_right fun hs => and_congr_right fun _ => done_target_skip ht hs

theorem sent_lend (hi : State.Inv σ.plan h) (hj : j ∈ h.held e) (he : σ.plan.target j ≠ e)
    (hnew : j ∉ h.lent e) : σ.sent (h.lend e j) = insert j (σ.sent h) ∧ j ∉ σ.sent h := by
  obtain ⟨hs, rfl⟩ := split_of_ne (hi.part e j hj) he
  refine ⟨?_, fun hmem => hnew (mem_sent.mp hmem).2.1⟩
  ext i
  rw [Finset.mem_insert, mem_sent, mem_sent, State.mem_lent_lend, State.done_lend]
  constructor
  · rintro ⟨hsi, hl | ⟨-, rfl⟩, hd⟩
    · exact Or.inr ⟨hsi, hl, hd⟩
    · exact Or.inl rfl
  · rintro (rfl | ⟨hsi, hl, hd⟩)
    · exact ⟨hs, Or.inr ⟨rfl, rfl⟩, not_done_of_notMem hi hj he hnew⟩
    · exact ⟨hsi, Or.inl hl, hd⟩

theorem returned_lend (hi : State.Inv σ.plan h) (hj : j ∈ h.held e) (he : σ.plan.target j ≠ e)
    (hnew : j ∉ h.lent e) : σ.returned (h.lend e j) = σ.returned h := by
  ext i
  rw [mem_returned, mem_returned, State.mem_lent_lend, State.done_lend]
  refine and_congr_right fun hs => ⟨?_, fun hr => ⟨Or.inl hr.1, hr.2⟩⟩
  rintro ⟨hl | ⟨he', rfl⟩, hd⟩
  · exact ⟨hl, hd⟩
  · exact absurd hd (not_done_of_notMem hi hj he hnew)

section Finish

variable (hi : State.Inv σ.plan h) (hj : j ∈ h.held e)

include hi hj

/-- Of other payments nothing changes. -/
theorem mem_sent_finish (hne : i ≠ j) : i ∈ σ.sent (h.finish σ.plan e j) ↔ i ∈ σ.sent h := by
  rw [mem_sent, mem_sent, State.mem_lent_finish, State.done_finish hi hj]
  simp [hne]

theorem mem_returned_finish (hne : i ≠ j) :
    i ∈ σ.returned (h.finish σ.plan e j) ↔ i ∈ σ.returned h := by
  rw [mem_returned, mem_returned, State.mem_lent_finish, State.done_finish hi hj]
  simp [hne]

theorem sent_finish_local (hs : ¬ σ.Split j) : σ.sent (h.finish σ.plan e j) = σ.sent h := by
  ext i
  by_cases hne : i = j
  · subst hne
    rw [mem_sent, mem_sent]
    exact iff_of_false (fun hmem => hs hmem.1) fun hmem => hs hmem.1
  · exact mem_sent_finish hi hj hne

theorem returned_finish_local (hs : ¬ σ.Split j) :
    σ.returned (h.finish σ.plan e j) = σ.returned h := by
  ext i
  by_cases hne : i = j
  · subst hne
    rw [mem_returned, mem_returned]
    exact iff_of_false (fun hmem => hs hmem.1) fun hmem => hs hmem.1
  · exact mem_returned_finish hi hj hne

/-- The payment is executed: the source account turns back. -/
theorem sent_finish_target (he : σ.plan.target j = e) :
    σ.sent (h.finish σ.plan e j) = (σ.sent h).erase j := by
  ext i
  rw [Finset.mem_erase]
  by_cases hne : i = j
  · subst hne
    rw [mem_sent, State.done_finish hi hj]
    exact iff_of_false (fun hmem => hmem.2.2 (Or.inr ⟨he, rfl⟩)) fun hmem => hmem.1 rfl
  · rw [mem_sent_finish hi hj hne, and_iff_right hne]

theorem returned_finish_target (hs : σ.Split j) (he : σ.plan.target j = e)
    (hlent : j ∈ h.lent (σ.home (σ.src j))) :
    σ.returned (h.finish σ.plan e j) = insert j (σ.returned h) ∧ j ∉ σ.returned h := by
  refine ⟨?_, fun hmem => ((he ▸ (mem_returned.mp hmem).2.2) : h.Done e j).2 hj⟩
  ext i
  rw [Finset.mem_insert]
  by_cases hne : i = j
  · subst hne
    rw [mem_returned, State.mem_lent_finish, State.done_finish hi hj]
    refine iff_of_true ⟨hs, ⟨hlent, ?_⟩, Or.inr ⟨he, rfl⟩⟩ (Or.inl rfl)
    rintro ⟨hsrc, -⟩
    exact hs.2 (hsrc.trans he.symm)
  · rw [mem_returned_finish hi hj hne, or_iff_right hne]

/-- The source account is back. -/
theorem returned_finish_source (he : σ.home (σ.src j) = e) :
    σ.returned (h.finish σ.plan e j) = (σ.returned h).erase j := by
  ext i
  rw [Finset.mem_erase]
  by_cases hne : i = j
  · subst hne
    rw [mem_returned, State.mem_lent_finish]
    exact iff_of_false (fun hmem => hmem.2.1.2 ⟨he, rfl⟩) fun hmem => hmem.1 rfl
  · rw [mem_returned_finish hi hj hne, and_iff_right hne]

theorem sent_finish_source (hs : σ.Split j) (he : σ.home (σ.src j) = e)
    (hran : h.Done (σ.plan.target j) j) : σ.sent (h.finish σ.plan e j) = σ.sent h := by
  ext i
  by_cases hne : i = j
  · subst hne
    rw [mem_sent, mem_sent, State.mem_lent_finish]
    exact iff_of_false (fun hmem => hmem.2.1.2 ⟨he, rfl⟩) fun hmem => hmem.2.2 hran
  · exact mem_sent_finish hi hj hne

end Finish

/-! ## The queues and the locks -/

theorem partition_of_mem_part (ha : a ∈ part σ.plan e j) : partition a = some e := by
  obtain ⟨hj, hor, hhome⟩ := mem_part_iff.mp ha
  have hmem : a ∈ (σ.task j).sbTx.requiredAccounts := by
    rw [← accounts_of_lt hj]
    exact mem_accounts.mpr ⟨hj, hor⟩
  obtain ⟨o, ho⟩ := Option.isSome_iff_exists.mp (σ.known _ (task_mem hj) a hmem)
  unfold home Partition.ownerD at hhome
  rw [ho] at hhome ⊢
  exact congrArg some hhome

theorem queues_hold : σ.queues (h.hold σ.plan e) e = fun a =>
    if a ∈ part σ.plan e (h.taken e) then
      some ((σ.queues h e a).getD [] ++ [σ.pending e (h.taken e)])
    else σ.queues h e a := by
  funext a
  unfold queues
  rw [State.queue_hold]
  by_cases ha : a ∈ part σ.plan e (h.taken e)
  · rw [if_pos ha, if_pos ha, if_neg (by simp), List.map_append]
    by_cases hq : h.queue σ.plan e a = []
    · rw [if_pos hq, hq]
      rfl
    · rw [if_neg hq]
      rfl
  · rw [if_neg ha, if_neg ha, List.append_nil]

/-- A transaction at the head leaves its queues. -/
theorem queues_finish (hi : State.Inv σ.plan h) (hj : j ∈ h.held e) (hhead : h.Head σ.plan e j) :
    σ.queues h e = fun a =>
      if a ∈ part σ.plan e j then
        some (σ.pending e j :: ((h.finish σ.plan e j).queue σ.plan e a).map (σ.pending e))
      else σ.queues (h.finish σ.plan e j) e a := by
  funext a
  unfold queues
  rw [State.queue_finish hi hj hhead]
  by_cases ha : a ∈ part σ.plan e j
  · rw [if_pos ha, if_pos ha, if_neg (by simp)]
    rfl
  · rw [if_neg ha, if_neg ha, List.nil_append]

theorem queues_of_removeEmpty (accounts : List ℕ) (h' : State ℕ ℕ) {queues : PendingQueues}
    (hin : ∀ a ∈ accounts, queues a = some ((h'.queue σ.plan e a).map (σ.pending e)))
    (hout : ∀ a ∉ accounts, queues a = σ.queues h' e a) :
    Executor.removeEmpty queues accounts = σ.queues h' e := by
  funext a
  unfold Executor.removeEmpty
  by_cases ha : a ∈ accounts
  · rw [hin a ha]
    unfold Course.queues
    by_cases hq : h'.queue σ.plan e a = []
    · rw [if_pos ⟨ha, by rw [hq]; rfl⟩, if_pos hq]
    · rw [if_neg (by simp [hq]), if_neg hq]
  · rw [if_neg fun hand => ha hand.1, hout a ha]

end Course

namespace Executor

theorem enqueue_eq {pending : PendingTransaction} {accounts : List ℕ} (hnodup : accounts.Nodup)
    (s : Executor) : enqueue pending accounts s = { s with
      pendingQueues := fun a =>
        if a ∈ accounts then some ((s.pendingQueues a).getD [] ++ [pending]) else s.pendingQueues a
      accountLocks := fun a =>
        if a ∈ accounts then some pending.txHeader.id else s.accountLocks a } := by
  induction accounts generalizing s with
  | nil => simp [enqueue]
  | cons account accounts ih =>
      rw [List.nodup_cons] at hnodup
      rw [enqueue, ih hnodup.2]
      have hupdate : ∀ {β : Type} (f : ℕ → Option β) (v : Option β) (g : ℕ → Option β → Option β),
          (fun a => if a ∈ accounts then g a (Function.update f account v a)
            else Function.update f account v a) =
          fun a => if a = account then v else if a ∈ accounts then g a (f a) else f a := by
        intro β f v g
        funext a
        by_cases ha : a = account
        · subst ha
          rw [if_neg hnodup.1, if_pos rfl, Function.update_self]
        · rw [if_neg ha, Function.update_of_ne ha]
      congr 1
      · rw [hupdate s.accountLocks _ fun _ _ => some pending.txHeader.id]
        funext a
        by_cases ha : a = account
        · simp [ha]
        · simp [ha]
      · rw [hupdate s.pendingQueues _ fun _ q => some (q.getD [] ++ [pending])]
        funext a
        by_cases ha : a = account
        · simp [ha]
        · simp [ha]

theorem popLoop_eq {pending : PendingTransaction} {accounts : List ℕ}
    (rest : ℕ → List PendingTransaction) (hnodup : accounts.Nodup) {queues : PendingQueues}
    (hqueues : ∀ a ∈ accounts, queues a = some (pending :: rest a))
    (found : Option PendingTransaction) :
    popLoop pending.txHeader.id accounts queues found =
      .ok (fun a => if a ∈ accounts then some (rest a) else queues a,
        if accounts = [] then found else found.or (some pending)) := by
  induction accounts generalizing queues found with
  | nil => simp [popLoop]
  | cons account accounts ih =>
      rw [List.nodup_cons] at hnodup
      rw [List.forall_mem_cons] at hqueues
      unfold popLoop
      rw [hqueues.1]
      dsimp only
      rw [if_pos rfl, ih hnodup.2 fun a ha => ?_]
      · refine congrArg Except.ok (Prod.ext (funext fun a => ?_) ?_)
        · by_cases ha : a = account
          · subst ha
            simp [hnodup.1]
          · simp [ha]
        · cases accounts with
          | nil => rfl
          | cons b accounts => cases found <;> rfl
      · have hne : a ≠ account := fun heq => hnodup.1 (heq ▸ ha)
        rw [Function.update_of_ne hne]
        exact hqueues.2 a ha

theorem reply_eq (clientReplyAddress : ℕ → Option SocketAddr) (s : Executor) (digest : Bytes)
    (header : TransactionHeader) (success : Bool) (accountId : ℕ)
    (accountState : Option AccountState) :
    ∃ replies, s.reply clientReplyAddress digest header success accountId accountState =
      { s with txClientReply := replies } := by
  unfold reply
  split
  · exact ⟨_, rfl⟩
  · exact ⟨_, rfl⟩

end Executor

namespace Course

variable {partition : Partition} {σ : Course partition} {h : State ℕ ℕ} {e i j a : ℕ}
  {s s' : Executor} {restTransfers : Multiset StateTransferRequest}
  {restWritebacks : Multiset StateWritebackRequest}

/-! ## Taking a transaction -/

theorem partition_eq_home (hj : j < σ.tasks.length) (ha : a ∈ σ.accounts j) :
    partition a = some (σ.home a) :=
  partition_of_mem_part (mem_part_iff.mpr ⟨hj, (mem_accounts.mp ha).2, rfl⟩)

theorem determineLocality_eq (hpart : part σ.plan e j ≠ []) :
    determineLocality e partition (σ.accounts j) = .ok (σ.locality e j) := by
  have hj := lt_of_part hpart
  have hsrc := partition_eq_home hj (src_mem hj)
  have hdest := partition_eq_home hj (dest_mem hj)
  have hor := home_of_part hpart
  rw [accounts_eq hj]
  unfold locality
  by_cases hsame : σ.src j = σ.dest j
  · rw [if_pos hsame, if_pos (by rw [hsame])]
    rfl
  · rw [if_neg hsame]
    simp only [determineLocality, executorHasAccount, getAccountExecutorId,
      getExecutorIdByPartition, hsrc, hdest, Except.map, bind, Except.bind]
    by_cases hs : σ.home (σ.src j) = e
    · by_cases hd : σ.home (σ.dest j) = e
      · simp [hs, hd]
      · simp [hs, hd, Ne.symm hd]
    · have hd : σ.home (σ.dest j) = e := (hor.resolve_left (Ne.symm hs)).symm
      simp [hs, hd]

theorem locality_of_local (hs : ¬ σ.Split j) (hj : j < σ.tasks.length) :
    σ.locality e j = .local := by
  unfold locality
  rw [if_pos]
  by_contra hne
  exact hs ⟨hj, hne⟩

theorem locality_source (hs : σ.Split j) :
    σ.locality (σ.home (σ.src j)) j = .distributedSource (σ.src j) (σ.home (σ.dest j)) := by
  unfold locality
  rw [if_neg hs.2, if_pos rfl]

theorem locality_dest (hs : σ.Split j) :
    σ.locality (σ.plan.target j) j = .distributedDest (σ.dest j) (σ.home (σ.src j)) := by
  unfold locality
  rw [if_neg hs.2, if_neg (show ¬ σ.home (σ.src j) = σ.plan.target j from hs.2)]

/-- A transaction is enqueued on the accounts of the executor. -/
theorem localAccounts_eq (hpart : part σ.plan e j ≠ []) :
    Executor.localAccounts (σ.accounts j) (σ.locality e j) = part σ.plan e j := by
  by_cases hs : σ.Split j
  · rcases home_of_part hpart with rfl | rfl
    · rw [locality_source hs, part_src hs]
      rfl
    · rw [← target_plan, locality_dest hs, target_plan, part_dest hs]
      rfl
  · rw [locality_of_local hs (lt_of_part hpart), (part_local hs hpart).1]
    rfl

/-- The reverse lookup with transaction `j`. -/
def destsWith (σ : Course partition) (e j : ℕ) (dests : TxID → Option ℕ) : TxID → Option ℕ :=
  if σ.Split j ∧ σ.plan.target j = e then Function.update dests (σ.id j) (some (σ.dest j))
  else dests

/-- The next transaction is enqueued. -/
theorem Running.hold (hr : σ.Running h e restTransfers restWritebacks s)
    (hpart : part σ.plan e (h.taken e) ≠ []) :
    σ.Running (h.hold σ.plan e) e restTransfers restWritebacks
      (Executor.enqueue (σ.pending e (h.taken e)) (part σ.plan e (h.taken e))
        { s with
          distributedDestAccounts := σ.destsWith e (h.taken e) s.distributedDestAccounts }) := by
  have hsite := hr.site
  rw [Executor.enqueue_eq nodup_part]
  refine ⟨hr.inv.hold hpart, ?_, ?_, ?_⟩
  · refine ⟨hsite.executorId, hsite.statesPartition, hsite.store, ?_, ?_, fun id a => ?_,
      hsite.outgoing, hsite.nodup_executed, fun id => ?_, hsite.nodup_writtenBack, fun id => ?_,
      ⟨hsite.keyed.1, hsite.keyed.2, hsite.keyed.3, hsite.keyed.4⟩⟩
    · funext a
      dsimp only
      rw [hsite.locks]
      unfold State.hold
      dsimp only
      by_cases ha : a ∈ part σ.plan e (h.taken e)
      · rw [if_pos ha, if_pos ha, if_pos (mem_part_iff.mp ha).2.2]
        rfl
      · rw [if_neg ha, if_neg ha]
    · rw [queues_hold]
      dsimp only
      rw [hsite.queues]
    · have hold := hsite.dests id a
      have hlt := lt_of_part hpart
      dsimp only
      unfold destsWith
      simp only [State.mem_held_hold, true_and]
      constructor
      · intro hget
        split at hget
        · rename_i hcond
          by_cases hid : id = σ.id (h.taken e)
          · subst hid
            rw [Function.update_self] at hget
            exact ⟨_, Or.inr rfl, hcond.1, hcond.2, rfl, Option.some.inj hget⟩
          · rw [Function.update_of_ne hid] at hget
            obtain ⟨i, hi, hrest⟩ := hold.mp hget
            exact ⟨i, Or.inl hi, hrest⟩
        · obtain ⟨i, hi, hrest⟩ := hold.mp hget
          exact ⟨i, Or.inl hi, hrest⟩
      · rintro ⟨i, hi, hs, ht, hid, hdest⟩
        rcases hi with hi | rfl
        · have hne : σ.id (h.taken e) ≠ id := by
            intro heq
            have hij := id_injective hs.1 hlt (hid.trans heq.symm)
            have := hr.inv.lt e i hi
            omega
          have hget := hold.mpr ⟨i, hi, hs, ht, hid, hdest⟩
          split
          · rw [Function.update_of_ne (Ne.symm hne)]
            exact hget
          · exact hget
        · rw [if_pos ⟨hs, ht⟩, ← hid, Function.update_self, hdest]
    · rw [hsite.mem_executed]
      simp only [State.done_hold]
    · rw [hsite.mem_writtenBack]
      simp only [State.done_hold]
  · rw [sent_hold]
    exact hr.transfers
  · rw [returned_hold]
    exact hr.writebacks

/-- The executor has no part in the next transaction. -/
theorem Running.skip (hr : σ.Running h e restTransfers restWritebacks s)
    (hpart : part σ.plan e (h.taken e) = []) :
    σ.Running (h.skip e) e restTransfers restWritebacks s := by
  have hsite := hr.site
  have hdone : ∀ j, part σ.plan e j ≠ [] → ((h.skip e).Done e j ↔ h.Done e j) := by
    intro j hj
    rw [State.done_skip]
    refine or_iff_left ?_
    rintro ⟨-, rfl, -⟩
    exact hj hpart
  refine ⟨hr.inv.skip proper_plan hpart, ?_, ?_, ?_⟩
  · refine ⟨hsite.executorId, hsite.statesPartition, hsite.store, hsite.locks, hsite.queues,
      hsite.dests, hsite.outgoing, hsite.nodup_executed, fun id => ?_, hsite.nodup_writtenBack,
      fun id => ?_, hsite.keyed⟩
    · rw [hsite.mem_executed]
      refine exists_congr fun j => and_congr_right fun hj => and_congr_right fun ht => ?_
      rw [hdone j]
      rw [← ht]
      exact proper_plan j (List.ne_nil_of_mem (dest_mem hj))
    · rw [hsite.mem_writtenBack]
      refine exists_congr fun j => and_congr_right fun hs => and_congr_right fun he => ?_
      rw [hdone j]
      rw [← he]
      exact part_of_split hs
  · rw [sent_skip hpart]
    exact hr.transfers
  · rw [returned_skip hpart]
    exact hr.writebacks

/-! ## Executing a transaction -/

/-- The accounts of a transaction at the head are as after the transactions before it. -/
theorem Running.store_eq (hr : σ.Running h e restTransfers restWritebacks s) (hj : j ∈ h.held e)
    (hhead : h.Head σ.plan e j) (ha : a ∈ part σ.plan e j) :
    s.accountStore a = some (σ.state j a) := by
  have hmem : a ∈ σ.accounts j := (mem_part.mp ha).1
  rw [hr.site.store]
  dsimp only
  rw [if_pos (partition_of_mem_part ha), ← value_eq_state j hmem]
  exact (value_eq_of_clear (hr.inv.clear_of_head hj hhead ha) (hr.inv.front_le hj ha)).symm

theorem Site.store_finish (hsite : σ.Site h e s) :
    (fun a => if partition a = some e then σ.value ((h.finish σ.plan e j).front a) a else none) =
      fun a => if a ∈ part σ.plan e j then σ.value (j + 1) a else s.accountStore a := by
  funext a
  rw [hsite.store]
  unfold State.finish
  dsimp only
  by_cases ha : a ∈ part σ.plan e j
  · rw [if_pos ha, if_pos ha, if_pos (partition_of_mem_part ha)]
  · rw [if_neg ha, if_neg ha]

theorem Site.locks_finish (hsite : σ.Site h e s) :
    (fun a => if σ.home a = e then ((h.finish σ.plan e j).lock a).map σ.id else none) =
      fun a => if a ∈ part σ.plan e j then none else s.accountLocks a := by
  funext a
  rw [hsite.locks]
  unfold State.finish
  dsimp only
  by_cases ha : a ∈ part σ.plan e j
  · rw [if_pos ha, if_pos ha, if_pos (mem_part_iff.mp ha).2.2]
    rfl
  · rw [if_neg ha, if_neg ha]

/-- What has been executed where: one transaction more. -/
theorem Site.executed_finish (hi : State.Inv σ.plan h) (hsite : σ.Site h e s) (hj : j ∈ h.held e)
    (he : σ.plan.target j = e) : (s.executed ++ [σ.id j]).Nodup ∧
      ∀ id, id ∈ s.executed ++ [σ.id j] ↔ ∃ i < σ.tasks.length, σ.plan.target i = e ∧
        (h.finish σ.plan e j).Done e i ∧ σ.id i = id := by
  have hlt := lt_of_part (hi.part e j hj)
  refine ⟨?_, fun id => ?_⟩
  · rw [List.nodup_append]
    refine ⟨hsite.nodup_executed, List.nodup_singleton _, fun id hid id' hid' heq => ?_⟩
    rw [List.mem_singleton] at hid'
    subst hid'
    obtain ⟨i, hi', -, hd, hii⟩ := (hsite.mem_executed id).mp hid
    obtain rfl := id_injective hi' hlt (hii.trans heq)
    exact hd.2 hj
  · rw [List.mem_append, hsite.mem_executed, List.mem_singleton]
    simp only [State.done_finish hi hj, true_and]
    constructor
    · rintro (⟨i, hi', ht, hd, rfl⟩ | rfl)
      · exact ⟨i, hi', ht, Or.inl hd, rfl⟩
      · exact ⟨j, hlt, he, Or.inr rfl, rfl⟩
    · rintro ⟨i, hi', ht, hd | rfl, rfl⟩
      · exact Or.inl ⟨i, hi', ht, hd, rfl⟩
      · exact Or.inr rfl

/-- What has been executed elsewhere stays the same. -/
theorem Site.executed_finish_of_ne (hi : State.Inv σ.plan h) (hsite : σ.Site h e s)
    (hj : j ∈ h.held e) (he : σ.plan.target j ≠ e) (id : TxID) : id ∈ s.executed ↔
      ∃ i < σ.tasks.length, σ.plan.target i = e ∧ (h.finish σ.plan e j).Done e i ∧ σ.id i = id := by
  rw [hsite.mem_executed]
  simp only [State.done_finish hi hj, true_and]
  refine exists_congr fun i => and_congr_right fun _ => and_congr_right fun ht =>
    and_congr_left fun _ => (or_iff_left ?_).symm
  rintro rfl
  exact he ht

/-- The same for the writebacks. -/
theorem Site.writtenBack_finish_of_ne (hi : State.Inv σ.plan h) (hsite : σ.Site h e s)
    (hj : j ∈ h.held e) (hne : σ.Split j → σ.home (σ.src j) ≠ e) (id : TxID) :
    id ∈ s.writtenBack ↔ ∃ i, σ.Split i ∧ σ.home (σ.src i) = e ∧
      (h.finish σ.plan e j).Done e i ∧ σ.id i = id := by
  rw [hsite.mem_writtenBack]
  simp only [State.done_finish hi hj, true_and]
  refine exists_congr fun i => and_congr_right fun hs => and_congr_right fun he =>
    and_congr_left fun _ => (or_iff_left ?_).symm
  rintro rfl
  exact hne hs he

/-- The reverse lookup and the states that were sent, of the other transactions. -/
theorem Site.dests_finish (hi : State.Inv σ.plan h) (hsite : σ.Site h e s) (hj : j ∈ h.held e)
    {dests : TxID → Option ℕ} (hown : σ.Split j → σ.plan.target j = e → dests (σ.id j) = none)
    (hothers : ∀ id, id ≠ σ.id j → dests id = s.distributedDestAccounts id)
    (hkeep : ¬ (σ.Split j ∧ σ.plan.target j = e) → dests = s.distributedDestAccounts)
    (id : TxID) (a : ℕ) : dests id = some a ↔ ∃ i ∈ (h.finish σ.plan e j).held e,
      σ.Split i ∧ σ.plan.target i = e ∧ σ.id i = id ∧ σ.dest i = a := by
  have hold := hsite.dests id a
  have hlt := lt_of_part (hi.part e j hj)
  simp only [State.mem_held_finish hi, true_and]
  by_cases hcond : σ.Split j ∧ σ.plan.target j = e
  · by_cases hid : id = σ.id j
    · subst hid
      rw [hown hcond.1 hcond.2]
      refine iff_of_false (by simp) ?_
      rintro ⟨i, ⟨-, hne⟩, hs, -, heq, -⟩
      exact hne (id_injective hs.1 hlt heq)
    · rw [hothers id hid, hold]
      refine exists_congr fun i => ⟨?_, ?_⟩
      · rintro ⟨hmem, hs, ht, heq, hdest⟩
        exact ⟨⟨hmem, fun hij => hid (by rw [← heq, hij])⟩, hs, ht, heq, hdest⟩
      · rintro ⟨⟨hmem, -⟩, hrest⟩
        exact ⟨hmem, hrest⟩
  · rw [hkeep hcond, hold]
    refine exists_congr fun i => ⟨?_, ?_⟩
    · rintro ⟨hmem, hs, ht, heq, hdest⟩
      refine ⟨⟨hmem, ?_⟩, hs, ht, heq, hdest⟩
      rintro rfl
      exact hcond ⟨hs, ht⟩
    · rintro ⟨⟨hmem, -⟩, hrest⟩
      exact ⟨hmem, hrest⟩

/-- A transaction with all its accounts at this executor. -/
theorem Running.finish_local (hr : σ.Running h e restTransfers restWritebacks s)
    (hj : j ∈ h.held e) (hs : ¬ σ.Split j) (hhead : h.Head σ.plan e j)
    (replies : List ClientReplyRequest) :
    σ.Running (h.finish σ.plan e j) e restTransfers restWritebacks { s with
      accountStore := fun a => if a ∈ σ.accounts j then σ.value (j + 1) a else s.accountStore a
      accountLocks := fun a => if a ∈ σ.accounts j then none else s.accountLocks a
      pendingQueues := σ.queues (h.finish σ.plan e j) e
      executed := s.executed ++ [σ.id j]
      txClientReply := replies } := by
  have hsite := hr.site
  have hpart := hr.inv.part e j hj
  obtain ⟨hall, ht⟩ := part_local hs hpart
  have hlent : ∀ i ∈ h.lent e, i ≠ j := by
    rintro i hi rfl
    exact (hr.inv.lent e i hi).2.1 ht
  obtain ⟨hnodup, hmem⟩ := hsite.executed_finish hr.inv hj ht
  have hwritten := hsite.writtenBack_finish_of_ne hr.inv hj fun h => absurd h hs
  refine ⟨?_, ?_, ?_, ?_⟩
  · refine hr.inv.finish hj hhead (fun _ e' hne hp => ?_) fun hne => absurd ht hne
    exact absurd ((part_local hs hp).2.symm.trans ht) hne
  · refine ⟨hsite.executorId, hsite.statesPartition, ?_, ?_, rfl, ?_, fun id => ?_, hnodup, hmem,
      hsite.nodup_writtenBack, hwritten,
      ⟨hsite.keyed.1, hsite.keyed.2, hsite.keyed.3, hsite.keyed.4⟩⟩
    · rw [hsite.store_finish, hall]
    · rw [hsite.locks_finish, hall]
    · exact hsite.dests_finish hr.inv hj (fun h => absurd h hs) (fun _ _ => rfl) fun _ => rfl
    · refine (hsite.outgoing id).trans (exists_congr fun i => ?_)
      rw [State.mem_lent_finish]
      refine and_congr_left fun _ => (and_iff_left_of_imp fun hi => ?_).symm
      exact fun hand => hlent i hi hand.2
  · rw [sent_finish_local hr.inv hj hs]
    exact hr.transfers
  · rw [returned_finish_local hr.inv hj hs]
    exact hr.writebacks

/-! ## The messages of a payment -/

theorem map_val_insert {α : Type} {S : Finset ℕ} (f : ℕ → α) (hj : j ∉ S) :
    (insert j S).val.map f = f j ::ₘ S.val.map f := by
  rw [Finset.insert_val_of_notMem hj, Multiset.map_cons]

theorem map_val_erase {α : Type} {S : Finset ℕ} (f : ℕ → α) (hj : j ∈ S) :
    S.val.map f = f j ::ₘ (S.erase j).val.map f := by
  rw [← map_val_insert f (Finset.notMem_erase j S), Finset.insert_erase hj]

/-- The transfer of a payment is sent once. -/
theorem Running.mem_transfers (hr : σ.Running h e restTransfers restWritebacks s)
    (hj : j < σ.tasks.length) {r : StateTransferRequest} (hmem : r ∈ s.transfers)
    (hid : r.stateTransfer.txId = σ.id j) : j ∈ σ.sent h ∧ r = σ.transferOf j := by
  have hin : r ∈ (σ.sent h).val.map σ.transferOf := by
    rw [← hr.transfers]
    exact Multiset.mem_add.mpr (Or.inl hmem)
  obtain ⟨i, hi, rfl⟩ := Multiset.mem_map.mp hin
  obtain rfl : i = j := id_injective (mem_sent.mp hi).1.1 hj hid
  exact ⟨hi, rfl⟩

theorem Running.mem_writebacks (hr : σ.Running h e restTransfers restWritebacks s)
    (hj : j < σ.tasks.length) {r : StateWritebackRequest} (hmem : r ∈ s.writebacks)
    (hid : r.stateWriteback.txId = σ.id j) : j ∈ σ.returned h ∧ r = σ.writebackOf j := by
  have hin : r ∈ (σ.returned h).val.map σ.writebackOf := by
    rw [← hr.writebacks]
    exact Multiset.mem_add.mpr (Or.inl hmem)
  obtain ⟨i, hi, rfl⟩ := Multiset.mem_map.mp hin
  obtain rfl : i = j := id_injective (mem_returned.mp hi).1.1 hj hid
  exact ⟨hi, rfl⟩

theorem mem_transfers_of_local {t : StateTransfer} (h : t ∈ s.localTransfers.values) :
    (⟨t, s.executorId⟩ : StateTransferRequest) ∈ s.transfers := by
  unfold Executor.transfers
  refine Multiset.mem_add.mpr (Or.inr (Multiset.mem_coe.mpr ?_))
  exact List.mem_map_of_mem (List.mem_append_right _ h)

theorem mem_writebacks_of_local {w : StateWritebackArrival} (h : w ∈ s.localWritebacks.values) :
    (⟨w, s.executorId⟩ : StateWritebackRequest) ∈ s.writebacks := by
  unfold Executor.writebacks
  refine Multiset.mem_add.mpr (Or.inr (Multiset.mem_coe.mpr ?_))
  exact List.mem_map_of_mem (List.mem_append_right _ h)

/-- The transfer of a payment that has arrived. -/
theorem Running.arrived (hr : σ.Running h e restTransfers restWritebacks s)
    (hj : j < σ.tasks.length) {t : StateTransfer} (ht : s.localTransfers.lookup (σ.id j) = some t) :
    j ∈ σ.sent h ∧ t = (σ.transferOf j).stateTransfer ∧ σ.plan.target j = e := by
  obtain ⟨hmem, hid⟩ := hr.site.keyed.localTransfers.lookup_eq_some.mp ht
  obtain ⟨hsent, heq⟩ := hr.mem_transfers hj (mem_transfers_of_local hmem) hid
  refine ⟨hsent, congrArg StateTransferRequest.stateTransfer heq, ?_⟩
  rw [← hr.site.executorId]
  exact (congrArg StateTransferRequest.destExecutorId heq).symm

theorem Running.came_back (hr : σ.Running h e restTransfers restWritebacks s)
    (hj : j < σ.tasks.length) {w : StateWritebackArrival}
    (hw : s.localWritebacks.lookup (σ.id j) = some w) :
    j ∈ σ.returned h ∧ w = (σ.writebackOf j).stateWriteback ∧ σ.home (σ.src j) = e := by
  obtain ⟨hmem, hid⟩ := hr.site.keyed.localWritebacks.lookup_eq_some.mp hw
  obtain ⟨hret, heq⟩ := hr.mem_writebacks hj (mem_writebacks_of_local hmem) hid
  refine ⟨hret, congrArg StateWritebackRequest.stateWriteback heq, ?_⟩
  rw [← hr.site.executorId]
  exact (congrArg StateWritebackRequest.srcExecutorId heq).symm

/-- The source account of a payment is sent. -/
theorem Running.lend (hr : σ.Running h e restTransfers restWritebacks s) (hj : j ∈ h.held e)
    (he : σ.plan.target j ≠ e) (hhead : h.Head σ.plan e j) (hnew : j ∉ h.lent e) :
    ∃ s', s.sendStateTransferForTx (σ.pending e j) (σ.src j) (σ.home (σ.dest j)) = .ok s' ∧
      σ.Running (h.lend e j) e restTransfers restWritebacks s' := by
  have hsite := hr.site
  have hpart := hr.inv.part e j hj
  obtain ⟨hs, rfl⟩ := split_of_ne hpart he
  have hsrc : s.accountStore (σ.src j) = some (σ.state j (σ.src j)) :=
    hr.store_eq hj hhead (mem_part_iff.mpr ⟨hs.1, Or.inl rfl, rfl⟩)
  refine ⟨{ s with
    outgoingStatesBuffer := Function.update s.outgoingStatesBuffer (σ.id j) (some (σ.transferOf j))
    txSendState := s.txSendState ++ [σ.transferOf j] }, ?_, ?_, ?_, ?_, ?_⟩
  · unfold Executor.sendStateTransferForTx
    rw [hsrc]
    rfl
  · exact hr.inv.lend hj he hhead
  · refine ⟨hsite.executorId, hsite.statesPartition, hsite.store, hsite.locks, hsite.queues,
      hsite.dests, fun id => ?_, hsite.nodup_executed, hsite.mem_executed,
      hsite.nodup_writtenBack, hsite.mem_writtenBack,
      ⟨hsite.keyed.1, hsite.keyed.2, hsite.keyed.3, hsite.keyed.4⟩⟩
    simp only [State.mem_lent_lend, true_and]
    by_cases hid : id = σ.id j
    · subst hid
      rw [Function.update_self]
      exact iff_of_true rfl ⟨j, Or.inr rfl, rfl⟩
    · rw [Function.update_of_ne hid, hsite.outgoing]
      refine exists_congr fun i => and_congr_left fun hi => (or_iff_left ?_).symm
      rintro rfl
      exact hid hi.symm
  · obtain ⟨hsent, hnot⟩ := sent_lend hr.inv hj he hnew
    rw [hsent, map_val_insert _ hnot, ← hr.transfers]
    unfold Executor.transfers
    dsimp only
    rw [← Multiset.coe_add, Multiset.coe_singleton, ← Multiset.singleton_add]
    abel
  · rw [returned_lend hr.inv hj he hnew]
    exact hr.writebacks

/-- A payment is executed where its destination account is. -/
theorem Running.finish_dest (hr : σ.Running h e restTransfers restWritebacks s) (hj : j ∈ h.held e)
    (hs : σ.Split j) (ht : σ.plan.target j = e) (hhead : h.Head σ.plan e j)
    (harrived : s.localTransfers.lookup (σ.id j) = some (σ.transferOf j).stateTransfer)
    (replies : List ClientReplyRequest) :
    σ.Running (h.finish σ.plan e j) e restTransfers restWritebacks { s with
      accountStore := Function.update s.accountStore (σ.dest j) (some (σ.paid j).2.1)
      accountLocks := fun a => if a ∈ [σ.dest j] then none else s.accountLocks a
      pendingQueues := σ.queues (h.finish σ.plan e j) e
      executed := s.executed ++ [σ.id j]
      localTransfers := s.localTransfers.erase (σ.id j)
      txStateWriteback := s.txStateWriteback ++ [σ.writebackOf j]
      distributedDestAccounts := Function.update s.distributedDestAccounts (σ.id j) none
      txClientReply := replies } := by
  have hsite := hr.site
  obtain ⟨hsent, -⟩ := hr.arrived hs.1 harrived
  obtain ⟨-, hlent, -⟩ := mem_sent.mp hsent
  have hpart : part σ.plan e j = [σ.dest j] := by
    rw [← ht]
    exact part_dest hs
  have hnotLent : ∀ i ∈ h.lent e, i ≠ j := by
    rintro i hi rfl
    exact (hr.inv.lent e i hi).2.1 ht
  obtain ⟨hnodup, hmem⟩ := hsite.executed_finish hr.inv hj ht
  have hwritten := hsite.writtenBack_finish_of_ne hr.inv hj fun _ heq => hs.2 (heq.trans ht.symm)
  refine ⟨?_, ?_, ?_, ?_⟩
  · refine hr.inv.finish hj hhead (fun _ e' hne hp => ?_) fun hne => absurd ht hne
    rcases home_of_part hp with rfl | rfl
    · exact hlent
    · exact absurd ht hne
  · refine ⟨hsite.executorId, hsite.statesPartition, ?_, ?_, rfl, ?_, fun id => ?_, hnodup, hmem,
      hsite.nodup_writtenBack, hwritten,
      ⟨hsite.keyed.1, hsite.keyed.2.erase _, hsite.keyed.3, hsite.keyed.4⟩⟩
    · rw [hsite.store_finish, hpart]
      funext a
      dsimp only
      by_cases ha : a = σ.dest j
      · subst ha
        rw [Function.update_self, if_pos (List.mem_singleton_self _), value_dest hs]
      · rw [Function.update_of_ne ha, if_neg (by simpa using ha)]
    · rw [hsite.locks_finish, hpart]
    · refine hsite.dests_finish hr.inv hj (fun _ _ => Function.update_self _ _ _)
        (fun id hid => Function.update_of_ne hid _ _) fun hnot => absurd ⟨hs, ht⟩ hnot
    · refine (hsite.outgoing id).trans (exists_congr fun i => ?_)
      rw [State.mem_lent_finish]
      refine and_congr_left fun _ => (and_iff_left_of_imp fun hi => ?_).symm
      exact fun hand => hnotLent i hi hand.2
  · rw [sent_finish_target hr.inv hj ht]
    refine (Multiset.cons_inj_right (σ.transferOf j)).mp ?_
    rw [← map_val_erase _ hsent, ← hr.transfers]
    unfold Executor.transfers
    dsimp only
    have hreq : (⟨(σ.transferOf j).stateTransfer, s.executorId⟩ : StateTransferRequest) =
        σ.transferOf j := by
      rw [hsite.executorId, ← ht]
      rfl
    have hperm := (AList.values_erase harrived).map fun t : StateTransfer =>
      (⟨t, s.executorId⟩ : StateTransferRequest)
    rw [List.map_cons, hreq] at hperm
    rw [List.map_append, List.map_append, ← Multiset.coe_add, ← Multiset.coe_add,
      Multiset.coe_eq_coe.mpr hperm, ← Multiset.cons_coe, ← Multiset.singleton_add,
      ← Multiset.singleton_add]
    abel
  · obtain ⟨hret, hnot⟩ := returned_finish_target hr.inv hj hs ht hlent
    rw [hret, map_val_insert _ hnot, ← hr.writebacks]
    unfold Executor.writebacks
    dsimp only
    rw [← Multiset.coe_add, Multiset.coe_singleton, ← Multiset.singleton_add]
    abel

/-- The source account of a payment is written back. -/
theorem Running.finish_source (hr : σ.Running h e restTransfers restWritebacks s)
    (hj : j ∈ h.lent e) (hback : s.localWritebacks.lookup (σ.id j) =
      some (σ.writebackOf j).stateWriteback) :
    σ.Running (h.finish σ.plan e j) e restTransfers restWritebacks { s with
      accountStore := Function.update s.accountStore (σ.src j) (some (σ.paid j).1)
      accountLocks := fun a => if a ∈ [σ.src j] then none else s.accountLocks a
      pendingQueues := σ.queues (h.finish σ.plan e j) e
      writtenBack := s.writtenBack ++ [σ.id j]
      localWritebacks := s.localWritebacks.erase (σ.id j)
      outgoingStatesBuffer := Function.update s.outgoingStatesBuffer (σ.id j) none } := by
  have hsite := hr.site
  obtain ⟨hheld, htarget, hhead⟩ := hr.inv.lent e j hj
  obtain ⟨hs, rfl⟩ := split_of_ne (hr.inv.part e j hheld) htarget
  obtain ⟨hret, -⟩ := hr.came_back hs.1 hback
  obtain ⟨-, -, hran⟩ := mem_returned.mp hret
  have hpart := part_src hs
  have hmem := hsite.executed_finish_of_ne hr.inv hheld htarget
  refine ⟨?_, ?_, ?_, ?_⟩
  · exact hr.inv.finish hheld hhead (fun he => absurd he htarget) fun _ => hran
  · refine ⟨hsite.executorId, hsite.statesPartition, ?_, ?_, rfl, ?_, fun id => ?_,
      hsite.nodup_executed, hmem, ?_, fun id => ?_,
      ⟨hsite.keyed.1, hsite.keyed.2, hsite.keyed.3, hsite.keyed.4.erase _⟩⟩
    · rw [hsite.store_finish, hpart]
      funext a
      dsimp only
      by_cases ha : a = σ.src j
      · subst ha
        rw [Function.update_self, if_pos (List.mem_singleton_self _), value_src hs]
      · rw [Function.update_of_ne ha, if_neg (by simpa using ha)]
    · rw [hsite.locks_finish, hpart]
    · exact hsite.dests_finish hr.inv hheld (fun _ ht => absurd ht htarget) (fun _ _ => rfl)
        fun _ => rfl
    · simp only [State.mem_lent_finish, true_and]
      by_cases hid : id = σ.id j
      · subst hid
        rw [Function.update_self]
        refine iff_of_false (by simp) ?_
        rintro ⟨i, ⟨hi, hne⟩, heq⟩
        have hlt := lt_of_part (hr.inv.part _ i (hr.inv.lent _ i hi).1)
        exact hne (id_injective hlt hs.1 heq)
      · rw [Function.update_of_ne hid, hsite.outgoing]
        refine exists_congr fun i => and_congr_left fun hi => (and_iff_left ?_).symm
        rintro rfl
        exact hid hi.symm
    · rw [List.nodup_append]
      refine ⟨hsite.nodup_writtenBack, List.nodup_singleton _, fun id hid id' hid' heq => ?_⟩
      rw [List.mem_singleton] at hid'
      subst hid'
      obtain ⟨i, hsi, -, hd, hii⟩ := (hsite.mem_writtenBack id).mp hid
      obtain rfl := id_injective hsi.1 hs.1 (hii.trans heq)
      exact hd.2 hheld
    · rw [List.mem_append, hsite.mem_writtenBack, List.mem_singleton]
      simp only [State.done_finish hr.inv hheld, true_and]
      constructor
      · rintro (⟨i, hsi, hi, hd, rfl⟩ | rfl)
        · exact ⟨i, hsi, hi, Or.inl hd, rfl⟩
        · exact ⟨j, hs, rfl, Or.inr rfl, rfl⟩
      · rintro ⟨i, hsi, hi, hd | rfl, rfl⟩
        · exact Or.inl ⟨i, hsi, hi, hd, rfl⟩
        · exact Or.inr rfl
  · rw [sent_finish_source hr.inv hheld hs rfl hran]
    exact hr.transfers
  · rw [returned_finish_source hr.inv hheld rfl]
    refine (Multiset.cons_inj_right (σ.writebackOf j)).mp ?_
    rw [← map_val_erase _ hret, ← hr.writebacks]
    unfold Executor.writebacks
    dsimp only
    have hreq : (⟨(σ.writebackOf j).stateWriteback, s.executorId⟩ : StateWritebackRequest) =
        σ.writebackOf j := by
      rw [hsite.executorId]
      rfl
    have hperm := (AList.values_erase hback).map fun w : StateWritebackArrival =>
      (⟨w, s.executorId⟩ : StateWritebackRequest)
    rw [List.map_cons, hreq] at hperm
    rw [List.map_append, List.map_append, ← Multiset.coe_add, ← Multiset.coe_add,
      Multiset.coe_eq_coe.mpr hperm, ← Multiset.cons_coe, ← Multiset.singleton_add,
      ← Multiset.singleton_add]
    abel

end Course

end DagBft.Writeback
