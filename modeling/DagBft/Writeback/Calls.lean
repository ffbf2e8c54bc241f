/-
  Transactions that an executor of the writeback design executes on its own, and
  `drain_pending_queues`, as steps of its site (`Writeback/Site`). Each transaction executed
  while draining leaves its queues, so a fuel of twice their number is enough.
-/
import DagBft.Writeback.Site

namespace DagBft.Writeback

open Worker Fusion Loan

theorem exists_state_of_update {store store' : AccountStore} {a : ℕ}
    {f : AccountState → AccountState × Bool} {success : Bool}
    (h : Executor.updateAccount store a f = .ok (store', success)) :
    ∃ state, (do
      let (store, success) ← Executor.updateAccount store a f
      .ok (store, success, store a)) = (.ok (store', success, state) : Except Panic _) := by
  rw [h]
  exact ⟨_, rfl⟩

/-- The two executors compute the same on an account store. -/
theorem executeSmallBank_of_fusion {store store' : AccountStore} {sbTx : SmallBankTransaction}
    {success : Bool} (h : Fusion.Executor.executeSmallBank store sbTx = .ok (store', success)) :
    ∃ state, Executor.executeSmallBank store sbTx = .ok (store', success, state) := by
  unfold Fusion.Executor.executeSmallBank at h
  unfold Executor.executeSmallBank
  cases htype : sbTx.txType with
  | sendPayment =>
      simp only [htype] at h ⊢
      split at h
      · obtain ⟨⟨store₁, debitSuccess⟩, hdebit, h⟩ := bind_eq_ok.mp h
        have hdebit' : Executor.updateAccount store sbTx.accountId
            (·.executeSendPaymentDebit sbTx.amount) = .ok (store₁, debitSuccess) := hdebit
        simp only [hdebit', bind, Except.bind]
        cases debitSuccess with
        | true =>
            have hcredit : Executor.updateAccount store₁ sbTx.destAccountId
                (fun account => (account.executeSendPaymentCredit sbTx.amount, true)) =
                  .ok (store', success) := h
            have hsuccess : success = true := by
              unfold Executor.updateAccount AccountStore.update at hcredit
              cases hdest : store₁ sbTx.destAccountId with
              | none =>
                  rw [hdest] at hcredit
                  cases hcredit
              | some v =>
                  rw [hdest] at hcredit
                  exact (Prod.mk.inj (Except.ok.inj hcredit)).2.symm
            simp only [if_true, hcredit]
            exact ⟨_, by rw [hsuccess]⟩
        | false =>
            obtain ⟨rfl, rfl⟩ := Prod.mk.inj (Except.ok.inj h)
            exact ⟨_, rfl⟩
      · cases h
  | _ =>
      simp only [htype] at h ⊢
      exact exists_state_of_update h

namespace Course

variable {partition : Partition} {σ : Course partition} {h : State ℕ ℕ} {e i j a : ℕ}
  {s s' : Executor} {restTransfers : Multiset StateTransferRequest}
  {restWritebacks : Multiset StateWritebackRequest}
  {clientReplyAddress : ℕ → Option SocketAddr}

theorem executeSingleLocalTransaction_eq (clientReplyAddress : ℕ → Option SocketAddr)
    (hj : j < σ.tasks.length) (hs : ¬ σ.Split j)
    (hstore : ∀ a ∈ σ.accounts j, s.accountStore a = σ.value j a) (digest : Bytes) :
    ∃ replies, s.executeSingleLocalTransaction clientReplyAddress digest (σ.task j).txBytes
        (σ.task j).header = .ok { s with
      executed := s.executed ++ [σ.id j]
      accountStore := fun a => if a ∈ σ.accounts j then σ.value (j + 1) a else s.accountStore a
      txClientReply := replies } := by
  have hreq : (σ.task j).sbTx.requiredAccounts = σ.accounts j := (accounts_of_lt hj).symm
  have hsome : ∀ a ∈ (σ.task j).sbTx.requiredAccounts, (σ.value j a).isSome := fun a ha =>
    isSome_value_of_mem j (hreq ▸ ha)
  obtain ⟨success, hfusion⟩ := executeSmallBank_eq hsome fun a ha => hstore a (hreq ▸ ha)
  obtain ⟨state, hok⟩ := executeSmallBank_of_fusion hfusion
  obtain ⟨replies, hreply⟩ := Executor.reply_eq clientReplyAddress { s with
    executed := s.executed ++ [σ.id j]
    accountStore := fun a => if a ∈ σ.accounts j then σ.value (j + 1) a else s.accountStore a }
    digest (σ.task j).header success (σ.task j).sbTx.accountId state
  refine ⟨replies, ?_⟩
  unfold Executor.executeSingleLocalTransaction
  rw [σ.payload _ (task_mem hj)]
  dsimp only
  rw [hok, hreq, ← value_succ_local hs hj]
  exact congrArg Except.ok hreply

/-- An account is ready for a transaction if no other one has locked it or is the first on
    it. -/
theorem Running.isAccountReady_iff (hr : σ.Running h e restTransfers restWritebacks s)
    (hj : j < σ.tasks.length) (ha : σ.home a = e) : s.isAccountReady a (σ.id j) = true ↔
      (h.lock a = none ∨ h.lock a = some j) ∧ ∀ i, (h.queue σ.plan e a).head? = some i → i = j := by
  have hlt : ∀ i ∈ h.held e, i < σ.tasks.length := fun i hi => lt_of_part (hr.inv.part e i hi)
  have hid : ∀ i ∈ h.held e, σ.id i = σ.id j → i = j := fun i hi => id_injective (hlt i hi) hj
  unfold Executor.isAccountReady
  rw [Bool.and_eq_true, hr.site.locks, hr.site.queues]
  refine and_congr ?_ ?_
  · dsimp only
    rw [if_pos ha]
    cases hl : h.lock a with
    | none => exact iff_of_true rfl (Or.inl rfl)
    | some i =>
        have hheld : i ∈ h.held e := by
          rw [← ha]
          exact (hr.inv.lock a i hl).1
        rw [Option.map_some, decide_eq_true_eq, or_iff_right (Option.some_ne_none i),
          Option.some.injEq]
        exact ⟨hid i hheld, fun heq => by rw [heq]⟩
  · unfold queues
    cases hq : h.queue σ.plan e a with
    | nil => exact iff_of_true rfl fun i hi => by cases hi
    | cons i rest =>
        have hheld : i ∈ h.held e := by
          have hmem : i ∈ h.queue σ.plan e a := by
            rw [hq]
            exact List.mem_cons_self
          exact (State.mem_queue.mp hmem).1
        rw [if_neg (List.cons_ne_nil _ _), List.map_cons]
        show decide (σ.id i = σ.id j) = true ↔ _
        rw [decide_eq_true_eq]
        constructor
        · intro heq k hk
          rw [← Option.some.inj hk]
          exact hid i hheld heq
        · intro hall
          rw [hall i rfl]

theorem Running.isReady_iff (hr : σ.Running h e restTransfers restWritebacks s)
    (hj : j < σ.tasks.length) (hhome : ∀ a ∈ σ.accounts j, σ.home a = e) :
    s.isReadyToExecute (σ.id j) (σ.accounts j) = true ↔ h.Free σ.plan j ∧
      ∀ a ∈ σ.accounts j, ∀ i, (h.queue σ.plan e a).head? = some i → i = j := by
  unfold Executor.isReadyToExecute
  rw [List.all_eq_true]
  constructor
  · intro hall
    exact ⟨fun a ha => ((hr.isAccountReady_iff hj (hhome a ha)).mp (hall a ha)).1,
      fun a ha => ((hr.isAccountReady_iff hj (hhome a ha)).mp (hall a ha)).2⟩
  · rintro ⟨hfree, hhead⟩ a ha
    exact (hr.isAccountReady_iff hj (hhome a ha)).mpr ⟨hfree a ha, hhead a ha⟩

/-- A transaction that is held back is ready if it is at the head of its queues and no other
    one has locked its accounts. -/
theorem Running.isReady_iff_head (hr : σ.Running h e restTransfers restWritebacks s)
    (hj : j ∈ h.held e) (hs : ¬ σ.Split j) :
    s.isReadyToExecute (σ.id j) (σ.accounts j) = true ↔ h.Free σ.plan j ∧ h.Head σ.plan e j := by
  have hpart := hr.inv.part e j hj
  obtain ⟨hall, -⟩ := part_local hs hpart
  have hhome : ∀ a ∈ σ.accounts j, σ.home a = e := fun a ha =>
    (mem_part_iff.mp (hall.symm ▸ ha)).2.2
  rw [hr.isReady_iff (lt_of_part hpart) hhome, State.head_iff hr.inv hj, hall]
  refine and_congr_right fun _ => forall₂_congr fun a ha => ?_
  have hmem : j ∈ h.queue σ.plan e a := State.mem_queue.mpr ⟨hj, hall.symm ▸ ha⟩
  constructor
  · intro h'
    obtain ⟨i, rest, hq⟩ := List.exists_cons_of_ne_nil (List.ne_nil_of_mem hmem)
    rw [hq] at h' ⊢
    rw [h' i rfl]
    rfl
  · intro h' i hi
    exact Option.some.inj (hi.symm.trans h')

theorem Running.removeFromAllQueues_eq (hr : σ.Running h e restTransfers restWritebacks s)
    (hj : j ∈ h.held e) (hs : ¬ σ.Split j) (hhead : h.Head σ.plan e j) :
    s.removeFromAllQueues (σ.accounts j) (σ.id j) = .ok (σ.pending e j,
      { s with pendingQueues := σ.queues (h.finish σ.plan e j) e }) := by
  have hpart := hr.inv.part e j hj
  obtain ⟨hall, -⟩ := part_local hs hpart
  have hqueues := queues_finish hr.inv hj hhead
  rw [hall] at hqueues
  have hheads : ∀ a ∈ σ.accounts j, s.pendingQueues a = some (σ.pending e j ::
      ((h.finish σ.plan e j).queue σ.plan e a).map (σ.pending e)) := by
    intro a ha
    rw [hr.site.queues, hqueues]
    exact if_pos ha
  have hpop := Executor.popLoop_eq (fun a => ((h.finish σ.plan e j).queue σ.plan e a).map
    (σ.pending e)) (nodup_accounts j) hheads none
  have hne : σ.accounts j ≠ [] := hall ▸ hpart
  unfold Executor.removeFromAllQueues
  rw [show σ.id j = (σ.pending e j).txHeader.id from rfl, hpop, if_neg hne]
  refine congrArg (fun q => Except.ok (σ.pending e j, { s with pendingQueues := q })) ?_
  refine queues_of_removeEmpty _ _ (fun a ha => if_pos ha) fun a ha => ?_
  rw [if_neg ha, hr.site.queues, hqueues]
  exact if_neg ha

/-! ## Draining the queues -/

/-- Steps of the executor, without taking a transaction. -/
structure Advance (σ : Course partition) (h : State ℕ ℕ) (e : ℕ)
    (restTransfers : Multiset StateTransferRequest)
    (restWritebacks : Multiset StateWritebackRequest) (h' : State ℕ ℕ) (s' : Executor) : Prop where
  steps : State.Steps σ.plan e h h'
  taken : h'.taken e = h.taken e
  running : σ.Running h' e restTransfers restWritebacks s'

variable {h' h'' : State ℕ ℕ}

theorem Running.advance (hr : σ.Running h e restTransfers restWritebacks s) :
    σ.Advance h e restTransfers restWritebacks h s := ⟨.refl, rfl, hr⟩

theorem Advance.trans {s'' : Executor} (had : σ.Advance h e restTransfers restWritebacks h' s')
    (had' : σ.Advance h' e restTransfers restWritebacks h'' s'') :
    σ.Advance h e restTransfers restWritebacks h'' s'' :=
  ⟨had.steps.trans had'.steps, had'.taken.trans had.taken, had'.running⟩

/-- A step that takes no transaction. -/
theorem Advance.of_step (hstep : State.Step σ.plan e h h') (htaken : h'.taken e = h.taken e)
    (hr : σ.Running h' e restTransfers restWritebacks s') :
    σ.Advance h e restTransfers restWritebacks h' s' := ⟨.single hstep, htaken, hr⟩

/-- Without taking a transaction the executor holds back no more. -/
theorem Advance.length_held_le (had : σ.Advance h e restTransfers restWritebacks h' s') :
    (h'.held e).length ≤ (h.held e).length := State.Steps.length_held_le had.steps had.taken

theorem length_accounts_le (j : ℕ) : (σ.accounts j).length ≤ 2 := by
  by_cases hj : j < σ.tasks.length
  · rw [accounts_eq hj]
    split
    · exact Nat.le_succ 1
    · exact le_rfl
  · rw [accounts, if_neg hj]
    exact Nat.zero_le 2

theorem length_held_finish (hj : j ∈ h.held e) :
    ((h.finish σ.plan e j).held e).length + 1 = (h.held e).length := by
  unfold State.finish
  dsimp only
  rw [Function.update_self, List.length_erase_of_mem hj]
  have := List.length_pos_of_mem hj
  omega

/-- The first transaction on an account. -/
theorem Running.head_cases (hr : σ.Running h e restTransfers restWritebacks s) (a : ℕ) :
    s.pendingQueues a = none ∨ ∃ j rest, h.queue σ.plan e a = j :: rest ∧ j ∈ h.held e ∧
      a ∈ part σ.plan e j ∧
      s.pendingQueues a = some (σ.pending e j :: rest.map (σ.pending e)) := by
  rw [hr.site.queues]
  unfold queues
  cases hq : h.queue σ.plan e a with
  | nil => exact Or.inl rfl
  | cons j rest =>
      have hmem : j ∈ h.queue σ.plan e a := by
        rw [hq]
        exact List.mem_cons_self
      obtain ⟨hheld, hpart⟩ := State.mem_queue.mp hmem
      exact Or.inr ⟨j, rest, rfl, hheld, hpart, rfl⟩

/-- A payment between two executors has one account here. -/
theorem Running.head_of_split (hr : σ.Running h e restTransfers restWritebacks s) (hs : σ.Split j)
    {rest : List ℕ} (hq : h.queue σ.plan e a = j :: rest) : h.Head σ.plan e j := by
  have hmem : j ∈ h.queue σ.plan e a := by
    rw [hq]
    exact List.mem_cons_self
  obtain ⟨hheld, ha⟩ := State.mem_queue.mp hmem
  rw [State.head_iff hr.inv hheld]
  have hone : ∀ b ∈ part σ.plan e j, b = a := by
    rcases home_of_part (hr.inv.part e j hheld) with rfl | rfl
    · rw [part_src hs] at ha ⊢
      intro b hb
      rw [List.mem_singleton.mp hb, List.mem_singleton.mp ha]
    · rw [part_dest hs] at ha ⊢
      intro b hb
      rw [List.mem_singleton.mp hb, List.mem_singleton.mp ha]
  intro b hb
  rw [hone b hb, hq]
  rfl

/-- A ready transaction is taken from its queues, executed, and its accounts are unlocked. -/
theorem Running.execute_local (clientReplyAddress : ℕ → Option SocketAddr)
    (hr : σ.Running h e restTransfers restWritebacks s)
    (hj : j ∈ h.held e) (hs : ¬ σ.Split j) (hfree : h.Free σ.plan j)
    (hhead : h.Head σ.plan e j) :
    ∃ s₁ s₂, s.removeFromAllQueues (σ.accounts j) (σ.id j) = .ok (σ.pending e j, s₁) ∧
      s₁.executeSingleLocalTransaction clientReplyAddress (σ.task j).digest (σ.task j).txBytes
        (σ.task j).header = .ok s₂ ∧
      σ.Advance h e restTransfers restWritebacks (h.finish σ.plan e j)
        (s₂.unlock (σ.accounts j)) := by
  have hpart := hr.inv.part e j hj
  obtain ⟨hall, ht⟩ := part_local hs hpart
  obtain ⟨replies, hexec⟩ := executeSingleLocalTransaction_eq
    (s := { s with pendingQueues := σ.queues (h.finish σ.plan e j) e }) clientReplyAddress
    (lt_of_part hpart) hs (fun a ha => by
      rw [value_eq_state j ha]
      exact hr.store_eq hj hhead (hall.symm ▸ ha)) (σ.task j).digest
  refine ⟨_, _, hr.removeFromAllQueues_eq hj hs hhead, hexec, ?_⟩
  refine .of_step (.run hj ht hhead (fun e' hne hp => ?_) fun _ => hfree) rfl
    (hr.finish_local hj hs hhead replies)
  exact absurd ((part_local hs hp).2.symm.trans ht) hne

theorem Running.drainAccount (clientReplyAddress : ℕ → Option SocketAddr) (account fuel : ℕ)
    (workSet : List ℕ) (hr : σ.Running h e restTransfers restWritebacks s)
    (hfuel : (h.held e).length < fuel) :
    ∃ workSet' s' h', Executor.drainAccount clientReplyAddress account fuel workSet s =
        .ok (workSet', s') ∧ σ.Advance h e restTransfers restWritebacks h' s' ∧
      workSet'.length + 2 * (h'.held e).length ≤ workSet.length + 2 * (h.held e).length := by
  induction fuel generalizing h s workSet with
  | zero => omega
  | succ fuel ih =>
      unfold Executor.drainAccount
      rcases hr.head_cases account with hnone | ⟨j, rest, hq, hj, ha, hsome⟩
      · rw [hnone]
        exact ⟨workSet, s, h, rfl, hr.advance, le_rfl⟩
      rw [hsome]
      by_cases hs : σ.Split j
      · have hhead := hr.head_of_split hs hq
        rcases home_of_part (hr.inv.part e j hj) with rfl | rfl
        · -- the source account is here
          have hl : (σ.pending (σ.home (σ.src j)) j).locality =
              .distributedSource (σ.src j) (σ.home (σ.dest j)) := locality_source hs
          have hid : (σ.pending (σ.home (σ.src j)) j).txHeader.id = σ.id j := rfl
          simp only [hl, hid]
          by_cases hlent : j ∈ h.lent (σ.home (σ.src j))
          · rw [if_pos ((hr.site.outgoing _).mpr ⟨j, hlent, rfl⟩)]
            exact ⟨workSet, s, h, rfl, hr.advance, le_rfl⟩
          · have hnot : ¬ (s.outgoingStatesBuffer (σ.id j)).isSome := by
              intro hsome
              obtain ⟨i, hi, heq⟩ := (hr.site.outgoing _).mp hsome
              have hlt := lt_of_part (hr.inv.part _ i (hr.inv.lent _ i hi).1)
              obtain rfl := id_injective hlt hs.1 heq
              exact hlent hi
            have htarget : σ.plan.target j ≠ σ.home (σ.src j) := Ne.symm hs.2
            obtain ⟨s', hsend, hr'⟩ := hr.lend hj htarget hhead hlent
            rw [if_neg hnot, hsend]
            exact ⟨workSet, s', _, rfl, .of_step (.lend hj htarget hhead) rfl hr', le_rfl⟩
        · -- the destination account is here
          have hl : (σ.pending (σ.home (σ.dest j)) j).locality =
              .distributedDest (σ.dest j) (σ.home (σ.src j)) := locality_dest hs
          simp only [hl]
          exact ⟨workSet, s, h, rfl, hr.advance, le_rfl⟩
      · have hlt := lt_of_part (hr.inv.part e j hj)
        have hl : (σ.pending e j).locality = .local := locality_of_local hs hlt
        have hid : (σ.pending e j).txHeader.id = σ.id j := rfl
        have hreq : (σ.pending e j).requiredAccounts = σ.accounts j := rfl
        simp only [hl, hid, hreq]
        by_cases hready : s.isReadyToExecute (σ.id j) (σ.accounts j) = true
        · obtain ⟨hfree, hhead⟩ := (hr.isReady_iff_head hj hs).mp hready
          obtain ⟨s₁, s₂, hremove, hexec, had⟩ :=
            hr.execute_local clientReplyAddress hj hs hfree hhead
          have hlen := length_held_finish (σ := σ) hj
          obtain ⟨workSet', s', h', hok, had', hle⟩ :=
            ih (Fusion.Executor.extendSet workSet (σ.accounts j)) had.running (by omega)
          have hextend := Fusion.Course.length_extendSet workSet (σ.accounts j)
          have htwo := length_accounts_le (σ := σ) j
          refine ⟨workSet', s', h', ?_, had.trans had', by omega⟩
          have hexec' : s₁.executeSingleLocalTransaction clientReplyAddress
              (σ.pending e j).batchDigest (σ.pending e j).txBytes (σ.pending e j).txHeader =
                .ok s₂ := hexec
          rw [if_pos hready, hremove]
          simp only [bind, Except.bind, hexec']
          exact hok
        · rw [if_neg hready]
          exact ⟨workSet, s, h, rfl, hr.advance, le_rfl⟩

theorem Running.drainPendingQueues (clientReplyAddress : ℕ → Option SocketAddr) (iter : Iteration)
    (fuel i : ℕ) (workSet : List ℕ) (hr : σ.Running h e restTransfers restWritebacks s)
    (hiter : (h.held e).length < iter.fuel)
    (hfuel : workSet.length + 2 * (h.held e).length ≤ fuel) :
    ∃ s' h', Executor.drainPendingQueues clientReplyAddress iter fuel i workSet s = .ok s' ∧
      σ.Advance h e restTransfers restWritebacks h' s' := by
  induction fuel generalizing h s workSet i with
  | zero =>
      obtain rfl : workSet = [] := List.length_eq_zero_iff.mp (by omega)
      exact ⟨s, h, rfl, hr.advance⟩
  | succ fuel ih =>
      cases workSet with
      | nil => exact ⟨s, h, rfl, hr.advance⟩
      | cons account workSet =>
          unfold Executor.drainPendingQueues
          have hlt : iter.picks i % (workSet.length + 1) < (account :: workSet).length :=
            Nat.mod_lt _ (Nat.succ_pos _)
          have hnext : (account :: workSet).getD (iter.picks i % (workSet.length + 1)) account ∈
              account :: workSet := by
            rw [List.getD_eq_getElem _ _ hlt]
            exact List.getElem_mem hlt
          generalize (account :: workSet).getD (iter.picks i % (workSet.length + 1)) account = next
            at hnext
          have hlen : ((account :: workSet).erase next).length = workSet.length :=
            List.length_erase_of_mem hnext
          obtain ⟨workSet', s', h', hok, had, hle⟩ := hr.drainAccount clientReplyAddress next
            iter.fuel ((account :: workSet).erase next) hiter
          rw [List.length_cons] at hfuel
          have hheld := had.length_held_le
          obtain ⟨s'', h'', hok', had'⟩ := ih (i + 1) workSet' had.running (by omega) (by omega)
          refine ⟨s'', h'', ?_, had.trans had'⟩
          dsimp only
          rw [hok]
          exact hok'

end Course

end DagBft.Writeback
