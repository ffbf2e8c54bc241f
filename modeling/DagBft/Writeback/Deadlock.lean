/-
  When the executors of the writeback design get stuck (`Writeback/System`).

  `lock_and_enqueue_transaction` takes the lock of an account even if a pending `Local`
  transaction waits for it at the head of the queue. This one finds the account locked from
  then on, and the transaction that has the lock is behind it. `drained_iff`: nothing is left
  pending, and nothing locked, exactly if that never happens. `not_drained`: it does happen.
-/
import DagBft.Writeback.Serial

namespace DagBft.Writeback

open Worker Fusion Loan

namespace System

/-- Every transfer and every writeback that was sent has arrived. -/
def Delivered (n : ℕ) (sys : System) : Prop :=
  (sys.transfers = [] ∧ sys.writebacks = []) ∧
    ∀ e < n, (sys.executors e).txSendState = [] ∧ (sys.executors e).txStateWriteback = []

/-- No call changes anything. -/
def Quiet (cfg : Settings) (batches : List Batch) (sys : System) : Prop :=
  ∀ e < cfg.numExecutors, ∀ iter : Iteration, 2 * (sequenceOf batches).length < iter.fuel →
    (sys.executors e).processIncomingTransfers cfg.clientReplyAddress iter =
        .ok (sys.executors e) ∧
      (sys.executors e).processIncomingWritebacks cfg.clientReplyAddress iter =
        .ok (sys.executors e) ∧
      ∀ workSet : List ℕ, Executor.drainPendingQueues cfg.clientReplyAddress iter
        (workSet.length + iter.fuel) 0 workSet (sys.executors e) = .ok (sys.executors e)

/-- All queues are empty and no account is locked. -/
def Drained (n : ℕ) (sys : System) : Prop :=
  ∀ e < n, (∀ a, (sys.executors e).pendingQueues a = none) ∧
    ∀ a, (sys.executors e).accountLocks a = none

end System

namespace Executor

theorem drainPendingQueues_nil (clientReplyAddress : ℕ → Option SocketAddr) (iter : Iteration)
    (fuel i : ℕ) (s : Executor) :
    drainPendingQueues clientReplyAddress iter fuel i [] s = .ok s := by
  unfold drainPendingQueues
  cases fuel <;> rfl

end Executor

namespace Course

variable {cfg : Settings} {partition : Partition} {stores : ℕ → AccountStore}
  {batches : List Batch} {σ : Course partition} {sys : System} {h h' : State ℕ ℕ}
  {s : Executor} {restTransfers restTransfers' : Multiset StateTransferRequest}
  {restWritebacks restWritebacks' : Multiset StateWritebackRequest} {a e i j k n : ℕ}
  {clientReplyAddress : ℕ → Option SocketAddr} {iter : Iteration}

/-- The queues tell what is held back. -/
theorem Running.held_subset (hr : σ.Running h e restTransfers restWritebacks s)
    (hr' : σ.Running h' e restTransfers' restWritebacks' s) : h.held e ⊆ h'.held e := by
  intro j hj
  obtain ⟨a, ha⟩ := List.exists_mem_of_ne_nil _ (hr.inv.part e j hj)
  have hmem : j ∈ h.queue σ.plan e a := State.mem_queue.mpr ⟨hj, ha⟩
  have hq : σ.queues h e a = σ.queues h' e a := by rw [← hr.site.queues, hr'.site.queues]
  unfold queues at hq
  rw [if_neg (List.ne_nil_of_mem hmem)] at hq
  split at hq
  · cases hq
  · have hin := List.mem_map_of_mem (f := σ.pending e) hmem
    rw [Option.some.inj hq] at hin
    obtain ⟨i, hi, heq⟩ := List.mem_map.mp hin
    have hheld := (State.mem_queue.mp hi).1
    have hid : σ.id i = σ.id j := congrArg (fun p => p.txHeader.id) heq
    have hij := id_injective (lt_of_part (hr'.inv.part e i hheld))
      (lt_of_part (hr.inv.part e j hj)) hid
    exact hij ▸ hheld

/-- An executor that makes steps and is what it was before holds back as much. -/
theorem Running.not_shrunk (hr : σ.Running h e restTransfers restWritebacks s)
    (had : σ.Advance h e restTransfers restWritebacks h' s) :
    ¬ (h'.held e).length < (h.held e).length := by
  have hle := (List.subperm_of_subset (hr.inv.nodup e) (hr.held_subset had.running)).length_le
  omega

/-- Draining the queue of an account whose first transaction has not sent its state. -/
theorem Running.drain_source (hr : σ.Running h e restTransfers restWritebacks s)
    (hj : j ∈ h.held e) (he : σ.plan.target j ≠ e) (hhead : h.Head σ.plan e j)
    (hnew : j ∉ h.lent e) (clientReplyAddress : ℕ → Option SocketAddr) (iter : Iteration)
    (hfuel : 0 < iter.fuel) :
    ∃ s', Executor.drainPendingQueues clientReplyAddress iter (1 + iter.fuel) 0 [σ.src j] s =
        .ok s' ∧ (s'.outgoingStatesBuffer (σ.id j)).isSome = true := by
  obtain ⟨hs, rfl⟩ := split_of_ne (hr.inv.part e j hj) he
  obtain ⟨s', hsend, hr'⟩ := hr.lend hj he hhead hnew
  have hlent : (s'.outgoingStatesBuffer (σ.id j)).isSome = true :=
    (hr'.site.outgoing _).mpr ⟨j, State.mem_lent_lend.mpr (Or.inr ⟨rfl, rfl⟩), rfl⟩
  refine ⟨s', ?_, hlent⟩
  have hnot : ¬ (s.outgoingStatesBuffer (σ.id j)).isSome := by
    intro hsome
    obtain ⟨i, hi, heq⟩ := (hr.site.outgoing _).mp hsome
    have hlt := lt_of_part (hr.inv.part _ i (hr.inv.lent _ i hi).1)
    exact hnew (id_injective hlt hs.1 heq ▸ hi)
  have hfirst := (State.head_iff hr.inv hj).mp hhead (σ.src j)
    (part_src hs ▸ List.mem_singleton_self _)
  obtain ⟨rest, hq⟩ := List.head?_eq_some_iff.mp hfirst
  rcases hr.head_cases (σ.src j) with hnone | ⟨i, rest', hq', -, -, hsome⟩
  · rw [hr.site.queues, queues, if_neg (by rw [hq]; exact List.cons_ne_nil _ _)] at hnone
    cases hnone
  obtain ⟨rfl, rfl⟩ := List.cons.inj (hq.symm.trans hq')
  obtain ⟨fuel, hfuel⟩ := Nat.exists_eq_add_of_lt hfuel
  have hl : (σ.pending (σ.home (σ.src j)) j).locality =
      .distributedSource (σ.src j) (σ.home (σ.dest j)) := locality_source hs
  have hid : (σ.pending (σ.home (σ.src j)) j).txHeader.id = σ.id j := rfl
  have hdrain : Executor.drainAccount clientReplyAddress (σ.src j) iter.fuel [] s =
      .ok ([], s') := by
    rw [hfuel, Nat.zero_add]
    unfold Executor.drainAccount
    simp only [hsome, hl, hid, if_neg hnot, hsend, bind, Except.bind]
  rw [Nat.add_comm]
  unfold Executor.drainPendingQueues
  simp only [List.length_nil, Nat.zero_add, Nat.mod_one, List.getD_cons_zero, List.erase_cons_head,
    hdrain, bind, Except.bind]
  exact Executor.drainPendingQueues_nil clientReplyAddress iter iter.fuel 1 s'

/-- Draining the queue of an account whose first transaction is ready. -/
theorem Running.drain_local (hr : σ.Running h e restTransfers restWritebacks s)
    (hj : j ∈ h.held e) (hs : ¬ σ.Split j) (hfree : h.Free σ.plan j) (hhead : h.Head σ.plan e j)
    (ha : a ∈ part σ.plan e j) (clientReplyAddress : ℕ → Option SocketAddr) (iter : Iteration)
    (hfuel : 2 * σ.tasks.length < iter.fuel) :
    ∃ s' h', Executor.drainPendingQueues clientReplyAddress iter (1 + iter.fuel) 0 [a] s =
        .ok s' ∧ σ.Advance h e restTransfers restWritebacks h' s' ∧
      (h'.held e).length < (h.held e).length := by
  have hj' := lt_of_part (hr.inv.part e j hj)
  have hN := hr.length_held_le
  have hfirst := (State.head_iff hr.inv hj).mp hhead a ha
  obtain ⟨rest, hq⟩ := List.head?_eq_some_iff.mp hfirst
  rcases hr.head_cases a with hnone | ⟨i, rest', hq', -, -, hsome⟩
  · rw [hr.site.queues, queues, if_neg (by rw [hq]; exact List.cons_ne_nil _ _)] at hnone
    cases hnone
  obtain ⟨rfl, rfl⟩ := List.cons.inj (hq.symm.trans hq')
  obtain ⟨s₁, s₂, hremove, hexec, had⟩ := hr.execute_local clientReplyAddress hj hs hfree hhead
  have hlen := length_held_finish (σ := σ) hj
  obtain ⟨fuel, hf⟩ := Nat.exists_eq_add_of_lt (Nat.zero_lt_of_lt hfuel)
  rw [Nat.zero_add] at hf
  obtain ⟨workSet, s₃, h₃, hok, had₃, hle⟩ := had.running.drainAccount clientReplyAddress a fuel
    (Fusion.Executor.extendSet [] (σ.accounts j)) (by omega)
  have hextend := Fusion.Course.length_extendSet [] (σ.accounts j)
  have htwo := length_accounts_le (σ := σ) j
  have hmono := had₃.length_held_le
  rw [List.length_nil] at hextend
  obtain ⟨s', h', hok', had'⟩ := had₃.running.drainPendingQueues clientReplyAddress iter iter.fuel
    1 workSet (by omega) (by omega)
  have hmono' := had'.length_held_le
  refine ⟨s', h', ?_, (had.trans had₃).trans had', by omega⟩
  have hl : (σ.pending e j).locality = .local := locality_of_local hs hj'
  have hid : (σ.pending e j).txHeader.id = σ.id j := rfl
  have hreq : (σ.pending e j).requiredAccounts = σ.accounts j := rfl
  have hready : s.isReadyToExecute (σ.id j) (σ.accounts j) = true :=
    (hr.isReady_iff_head hj hs).mpr ⟨hfree, hhead⟩
  have hexec' : s₁.executeSingleLocalTransaction clientReplyAddress (σ.pending e j).batchDigest
      (σ.pending e j).txBytes (σ.pending e j).txHeader = .ok s₂ := hexec
  have hdrain : Executor.drainAccount clientReplyAddress a iter.fuel [] s = .ok (workSet, s₃) := by
    rw [hf]
    unfold Executor.drainAccount
    simp only [hsome, hl, hid, hreq, hready, if_true, hremove, hexec', bind, Except.bind]
    exact hok
  rw [Nat.add_comm]
  unfold Executor.drainPendingQueues
  simp only [List.length_nil, Nat.zero_add, Nat.mod_one, List.getD_cons_zero, List.erase_cons_head,
    hdrain, bind, Except.bind]
  exact hok'

/-! ## Quiet states -/

/-- What has arrived is in the local buffer when it is processed. -/
theorem Running.mem_localTransfers (hr : σ.Running h e restTransfers restWritebacks s)
    (hsend : s.txSendState = []) {r : StateTransferRequest} (hmem : r ∈ s.transfers) :
    r.stateTransfer.txId ∈ (Writeback.takeTransfers s).localTransfers := by
  have htake := hr.takeTransfers
  have hsame : (Writeback.takeTransfers s).transfers = s.transfers := by
    refine add_right_cancel (b := restTransfers) ?_
    rw [htake.transfers, hr.transfers]
  rw [← hsame] at hmem
  unfold Executor.transfers at hmem
  rw [show (Writeback.takeTransfers s).txSendState = [] from hsend, Multiset.coe_nil,
    zero_add] at hmem
  obtain ⟨t, ht, rfl⟩ := List.mem_map.mp (Multiset.mem_coe.mp hmem)
  exact htake.site.keyed.localTransfers.mem_iff.mpr ⟨t, ht, rfl⟩

theorem Running.mem_localWritebacks (hr : σ.Running h e restTransfers restWritebacks s)
    (hsend : s.txStateWriteback = []) {r : StateWritebackRequest} (hmem : r ∈ s.writebacks) :
    r.stateWriteback.txId ∈ (Writeback.takeWritebacks s).localWritebacks := by
  have htake := hr.takeWritebacks
  have hsame : (Writeback.takeWritebacks s).writebacks = s.writebacks := by
    refine add_right_cancel (b := restWritebacks) ?_
    rw [htake.writebacks, hr.writebacks]
  rw [← hsame] at hmem
  unfold Executor.writebacks at hmem
  rw [show (Writeback.takeWritebacks s).txStateWriteback = [] from hsend, Multiset.coe_nil,
    zero_add] at hmem
  obtain ⟨w, hw, rfl⟩ := List.mem_map.mp (Multiset.mem_coe.mp hmem)
  exact htake.site.keyed.localWritebacks.mem_iff.mpr ⟨w, hw, rfl⟩

/-- Messages are with the executor that they are for, if everything sent has arrived. -/
theorem Inv.mem_transfers (hi : σ.Inv n batches sys h) (hdel : sys.Delivered n)
    {r : StateTransferRequest} (hr : r ∈ sys.allTransfers n) :
    r.destExecutorId < n ∧ r ∈ (sys.executors r.destExecutorId).transfers := by
  unfold System.allTransfers System.total at hr
  rw [hdel.1.1, Multiset.coe_nil, add_zero, Multiset.mem_sum] at hr
  obtain ⟨e, he, hmem⟩ := hr
  have he := Finset.mem_range.mp he
  have hdest : r.destExecutorId = e := by
    unfold Executor.transfers at hmem
    rw [(hdel.2 e he).1, Multiset.coe_nil, zero_add, (hi.site e he).executorId] at hmem
    obtain ⟨t, -, rfl⟩ := List.mem_map.mp (Multiset.mem_coe.mp hmem)
    rfl
  rw [hdest]
  exact ⟨he, hmem⟩

theorem Inv.mem_writebacks (hi : σ.Inv n batches sys h) (hdel : sys.Delivered n)
    {r : StateWritebackRequest} (hr : r ∈ sys.allWritebacks n) :
    r.srcExecutorId < n ∧ r ∈ (sys.executors r.srcExecutorId).writebacks := by
  unfold System.allWritebacks System.total at hr
  rw [hdel.1.2, Multiset.coe_nil, add_zero, Multiset.mem_sum] at hr
  obtain ⟨e, he, hmem⟩ := hr
  have he := Finset.mem_range.mp he
  have hsource : r.srcExecutorId = e := by
    unfold Executor.writebacks at hmem
    rw [(hdel.2 e he).2, Multiset.coe_nil, zero_add, (hi.site e he).executorId] at hmem
    obtain ⟨w, -, rfl⟩ := List.mem_map.mp (Multiset.mem_coe.mp hmem)
    rfl
  rw [hsource]
  exact ⟨he, hmem⟩

/-- In a quiet state no executor can do anything with what it holds back. -/
theorem Inv.not_enabled (hi : σ.Inv cfg.numExecutors batches sys h)
    (htasks : σ.tasks = tasksOf batches) (hdel : sys.Delivered cfg.numExecutors)
    (hquiet : sys.Quiet cfg batches) (he : e < cfg.numExecutors) (hj : j ∈ h.held e)
    (hhead : h.Head σ.plan e j) : ¬ h.Enabled σ.plan e j := by
  have hr := hi.running he
  have hpart := hr.inv.part e j hj
  have hlen := length_tasks htasks
  obtain ⟨htransfers, hwritebacks, hdrain⟩ :=
    hquiet e he (Iteration.inOrder batches) (Nat.lt_succ_self _)
  have hfuel : 2 * σ.tasks.length < (Iteration.inOrder batches).fuel := by
    rw [hlen]
    exact Nat.lt_succ_self _
  rintro (⟨htarget, hnew⟩ | ⟨htarget, hlent, hfree⟩ | ⟨hlent, hran⟩)
  · -- it would send the state of its account
    obtain ⟨s', hok, hsome⟩ := hr.drain_source hj htarget hhead hnew cfg.clientReplyAddress
      (Iteration.inOrder batches) (Nat.zero_lt_of_lt hfuel)
    obtain rfl := Except.ok.inj ((hdrain [σ.src j]).symm.trans hok)
    obtain ⟨i, hi', heq⟩ := (hr.site.outgoing _).mp hsome
    have hlt := lt_of_part (hr.inv.part _ i (hr.inv.lent _ i hi').1)
    exact hnew (id_injective hlt (lt_of_part hpart) heq ▸ hi')
  · by_cases hs : σ.Split j
    · -- the state that it waits for has arrived
      have hsent : j ∈ σ.sent h := by
        refine mem_sent.mpr ⟨hs, hlent _ (fun heq => hs.2 (heq.trans htarget.symm))
          (part_of_split hs), fun hd => ?_⟩
        rw [htarget] at hd
        exact hd.2 hj
      have hmem : σ.transferOf j ∈ sys.allTransfers cfg.numExecutors := by
        rw [hi.transfers]
        exact Multiset.mem_map_of_mem _ hsent
      have hthere := (hi.mem_transfers hdel hmem).2
      have hdest : (σ.transferOf j).destExecutorId = e := htarget
      rw [hdest] at hthere
      have hlocal := hr.mem_localTransfers (hdel.2 e he).1 hthere
      obtain ⟨s', h', hok, had, hor⟩ :=
        hr.processIncomingTransfers cfg.clientReplyAddress (Iteration.inOrder batches) hfuel
      obtain rfl := Except.ok.inj (htransfers.symm.trans hok)
      exact hor.elim (hr.not_shrunk had) fun hnot => hnot _ hlocal ⟨j, hj, hs, rfl, hhead⟩
    · -- it would be executed
      obtain ⟨a, ha⟩ := List.exists_mem_of_ne_nil _ hpart
      obtain ⟨s', h', hok, had, hlt⟩ := hr.drain_local hj hs (hfree (alone_iff.mpr hs)) hhead ha
        cfg.clientReplyAddress (Iteration.inOrder batches) hfuel
      obtain rfl := Except.ok.inj ((hdrain [a]).symm.trans hok)
      exact hr.not_shrunk had hlt
  · -- the state that was sent has come back
    obtain ⟨-, htarget, -⟩ := hr.inv.lent e j hlent
    obtain ⟨hs, rfl⟩ := split_of_ne hpart htarget
    have hmem : σ.writebackOf j ∈ sys.allWritebacks cfg.numExecutors := by
      rw [hi.writebacks]
      exact Multiset.mem_map_of_mem _ (mem_returned.mpr ⟨hs, hlent, hran⟩)
    have hthere := (hi.mem_writebacks hdel hmem).2
    have hlocal := hr.mem_localWritebacks (hdel.2 _ he).2 hthere
    obtain ⟨s', h', hok, had, hor⟩ :=
      hr.processIncomingWritebacks cfg.clientReplyAddress (Iteration.inOrder batches) hfuel
    obtain rfl := Except.ok.inj (hwritebacks.symm.trans hok)
    exact hor.elim (hr.not_shrunk had) fun hnot => hnot _ hlocal ⟨j, hj, hs, rfl, hhead⟩

/-- Nothing is held back in a quiet state exactly if no transaction is stuck. -/
theorem Inv.held_eq_nil_iff (hadm : Admissible cfg partition stores batches)
    (hi : σ.Inv cfg.numExecutors batches sys h) (htasks : σ.tasks = tasksOf batches)
    (hk : sys.Processed cfg.numExecutors k) (hdel : sys.Delivered cfg.numExecutors)
    (hquiet : sys.Quiet cfg batches) : (∀ e, h.held e = []) ↔ ¬ h.Stuck σ.plan := by
  constructor
  · rintro hnil ⟨a, i, hfirst, -⟩
    have hmem := hfirst.1
    rw [hnil] at hmem
    cases hmem
  · intro hstuck
    by_contra hne
    push Not at hne
    have hexists : ∀ e j, j ∈ h.held e → e < cfg.numExecutors := by
      intro e j hj
      by_contra hge
      rw [(hi.others e (Nat.le_of_not_lt hge)).2] at hj
      cases hj
    have htaken : ∀ e < cfg.numExecutors, h.taken e = offset batches k := by
      intro e he
      rw [hi.taken e he, hk e he]
    obtain ⟨e, j, hj, hhead, henabled⟩ := hi.inv.progress (n := offset batches k) proper_plan
      hstuck (fun e j hj => by
        rw [← htaken e (hexists e j hj)]
        exact hi.inv.lt e j hj)
      (fun e j _ hpart => by
        obtain ⟨a, ha⟩ := List.exists_mem_of_ne_nil _ hpart
        obtain ⟨hcell, rfl⟩ := mem_part.mp ha
        exact htaken _ (home_lt hadm (lt_of_mem hcell) hcell)) hne
    exact hi.not_enabled htasks hdel hquiet (hexists e j hj) hj hhead henabled

/-- Without transactions that are held back nothing is pending or locked. -/
theorem Inv.drained_iff_held (hi : σ.Inv n batches sys h) :
    sys.Drained n ↔ ∀ e, h.held e = [] := by
  constructor
  · intro hdrained e
    refine hi.held_eq_nil (fun e he a => ?_) e
    rw [(hdrained e he).1 a]
    rfl
  · intro hnil e he
    refine ⟨fun a => ?_, fun a => ?_⟩
    · rw [(hi.site e he).queues]
      unfold queues State.queue
      rw [hnil]
      rfl
    · rw [(hi.site e he).locks]
      dsimp only
      split
      · cases hl : h.lock a with
        | none => rfl
        | some j =>
            have hj := (hi.inv.lock a j hl).1
            rw [hnil] at hj
            cases hj
      · rfl

end Course

/-- When all executors have processed the same batches, every message has arrived and no call
    changes anything, then everything is drained if and only if no step of the run has
    overwritten the lock of a transaction that waits at the head of a queue. -/
theorem drained_iff (cfg : Settings) (partition : Partition) (stores : ℕ → AccountStore)
    (batches : List Batch) (hadm : Admissible cfg partition stores batches) (events : List Event)
    (henough : ∀ event ∈ events, event.Enough batches) :
    ∃ sys, System.run cfg partition batches (System.initial partition stores) events = .ok sys ∧
      ((∃ k, sys.Processed cfg.numExecutors k) → sys.Delivered cfg.numExecutors →
        sys.Quiet cfg batches →
          (sys.Drained cfg.numExecutors ↔
            System.Considerate cfg partition batches events
              (System.initial partition stores))) := by
  obtain ⟨σ, sys, h, hok, hi, -, htasks, hstuck⟩ :=
    reach cfg partition stores batches hadm events henough
  refine ⟨sys, hok, fun ⟨k, hk⟩ hdel hquiet => ?_⟩
  rw [hi.drained_iff_held, hi.held_eq_nil_iff hadm htasks hk hdel hquiet, hstuck, not_not]

/-! ## A transaction that waits forever -/

namespace Executor

variable {s : Executor} {account : ℕ} {clientReplyAddress : ℕ → Option SocketAddr}
  {iter : Iteration}

/-- Draining the queue of the account changes nothing. -/
def isWaiting (s : Executor) (account : ℕ) : Bool :=
  match s.pendingQueues account with
  | some (head :: _) =>
      match head.locality with
      | .distributedSource _ _ => (s.outgoingStatesBuffer head.txHeader.id).isSome
      | .distributedDest _ _ => true
      | .local => !s.isReadyToExecute head.txHeader.id head.requiredAccounts
  | _ => true

theorem drainAccount_of_isWaiting (h : s.isWaiting account = true)
    (clientReplyAddress : ℕ → Option SocketAddr) (fuel : ℕ) (workSet : List ℕ) :
    drainAccount clientReplyAddress account (fuel + 1) workSet s = .ok (workSet, s) := by
  unfold drainAccount
  unfold isWaiting at h
  split
  · rename_i head queue hq
    rw [hq] at h
    dsimp only at h
    split
    · rename_i hl
      rw [hl] at h
      exact if_pos h
    · rfl
    · rename_i hl
      rw [hl] at h
      exact if_neg (Bool.not_eq_true _ ▸ (Bool.not_eq_true' _ ▸ h))
  · rfl

theorem drainPendingQueues_of_isWaiting (h : ∀ a, s.isWaiting a = true)
    (hfuel : 0 < iter.fuel) {fuel : ℕ} {workSet : List ℕ} (hle : workSet.length ≤ fuel) (i : ℕ) :
    drainPendingQueues clientReplyAddress iter fuel i workSet s = .ok s := by
  obtain ⟨m, hm⟩ := Nat.exists_eq_add_of_lt hfuel
  rw [Nat.zero_add] at hm
  induction fuel generalizing i workSet with
  | zero =>
      rw [List.eq_nil_of_length_eq_zero (Nat.le_zero.mp hle)]
      exact drainPendingQueues_nil clientReplyAddress iter 0 i s
  | succ fuel ih =>
      cases workSet with
      | nil => exact drainPendingQueues_nil clientReplyAddress iter (fuel + 1) i s
      | cons account workSet =>
          have hlt : iter.picks i % (workSet.length + 1) < (account :: workSet).length :=
            Nat.mod_lt _ (Nat.succ_pos _)
          have hmem : (account :: workSet).getD (iter.picks i % (workSet.length + 1)) account ∈
              account :: workSet := by
            rw [List.getD_eq_getElem _ _ hlt]
            exact List.getElem_mem hlt
          unfold drainPendingQueues
          simp only [hm, drainAccount_of_isWaiting (h _), bind, Except.bind]
          refine ih ?_ (i + 1)
          rw [List.length_erase_of_mem hmem]
          exact Nat.le_of_succ_le_succ hle

/-- Nothing has arrived: the buffer of the executor is empty, and the shared one too. -/
theorem processIncomingTransfers_of_empty (h : s.incomingTransfers = ∅)
    (h' : s.localTransfers = ∅) :
    s.processIncomingTransfers clientReplyAddress iter = .ok s := by
  have htake : takeTransfers s = s := by
    cases s
    subst h h'
    rfl
  have hnil : iter.txIds (takeTransfers s).localTransfers.keys = [] := by
    rw [htake, h']
    exact (iter.txIds_perm []).eq_nil
  rw [processIncomingTransfers_eq, hnil, htake]
  exact drainPendingQueues_nil clientReplyAddress iter iter.fuel 0 s

theorem processIncomingWritebacks_of_empty (h : s.incomingWritebacks = ∅)
    (h' : s.localWritebacks = ∅) :
    s.processIncomingWritebacks clientReplyAddress iter = .ok s := by
  have htake : takeWritebacks s = s := by
    cases s
    subst h h'
    rfl
  have hnil : iter.txIds (takeWritebacks s).localWritebacks.keys = [] := by
    rw [htake, h']
    exact (iter.txIds_perm []).eq_nil
  rw [processIncomingWritebacks_eq, hnil, htake]
  exact drainPendingQueues_nil clientReplyAddress iter iter.fuel 0 s

end Executor

/-- Executors that wait on every account, and have received nothing, are quiet. -/
theorem System.quiet_of_isWaiting {cfg : Settings} {batches : List Batch} {sys : System}
    (hempty : ∀ e < cfg.numExecutors, (sys.executors e).incomingTransfers.entries = [] ∧
      (sys.executors e).localTransfers.entries = [] ∧
        (sys.executors e).incomingWritebacks.entries = [] ∧
          (sys.executors e).localWritebacks.entries = [])
    (hwait : ∀ e < cfg.numExecutors, ∀ a, (sys.executors e).isWaiting a = true) :
    sys.Quiet cfg batches := by
  intro e he iter hfuel
  obtain ⟨ht, ht', hw, hw'⟩ := hempty e he
  exact ⟨Executor.processIncomingTransfers_of_empty (AList.ext ht) (AList.ext ht'),
    Executor.processIncomingWritebacks_of_empty (AList.ext hw) (AList.ext hw'), fun workSet =>
      Executor.drainPendingQueues_of_isWaiting (hwait e he) (Nat.zero_lt_of_lt hfuel)
        (Nat.le_add_right _ _) 0⟩

/-- An executor has no queues for the accounts of others. -/
theorem Course.Inv.pendingQueues_eq_none {partition : Partition} {batches : List Batch}
    {σ : Course partition} {sys : System} {h : State ℕ ℕ} {n e a : ℕ}
    (hi : σ.Inv n batches sys h) (he : e < n) (ha : partition a ≠ some e) :
    (sys.executors e).pendingQueues a = none := by
  rw [(hi.site e he).queues]
  unfold Course.queues
  refine if_pos (List.eq_nil_iff_forall_not_mem.mpr fun j hj => ha ?_)
  exact Course.partition_of_mem_part (State.mem_queue.mp hj).2

section Sample

namespace LockSample

open ReturnSample (settings)

/-- Accounts 0 and 1 are with the first of two executors, account 2 with the second. -/
def partition : Partition := fun account =>
  if account < 2 then some 0 else if account = 2 then some 1 else none

/-- A transaction of amount 0. -/
def transaction (counter account dest txType : UInt8) : Bytes :=
  List.replicate 9 0 ++ [counter] ++ List.replicate 7 0 ++ [account] ++ List.replicate 7 0 ++
    [dest, txType] ++ List.replicate 8 0

/-- A payment from account 0 to account 2, one from account 0 to account 1, and a deposit into
    account 1. The second batch is empty. -/
def batches : List Batch :=
  [⟨[7], [transaction 0 0 2 4, transaction 1 0 1 4, transaction 2 1 1 1]⟩, ⟨[8], []⟩]

def stores (e : ℕ) : AccountStore := fun a =>
  if partition a = some e then some ⟨100, 100⟩ else none

theorem owner_lt {a e : ℕ} (h : partition a = some e) : e < 2 := by
  unfold partition at h
  split at h
  · rw [← Option.mem_some_iff.mp h]
    decide
  · split at h
    · rw [← Option.mem_some_iff.mp h]
      decide
    · cases h

theorem admissible : Admissible settings partition stores batches where
  owned a e he := owner_lt he
  stores e a := by
    unfold stores
    split <;> simp_all
  wellFormed b hb tx htx := by
    have htx : tx ∈ sequenceOf batches := List.mem_flatMap.mpr ⟨b, hb, htx⟩
    have hall : sequenceOf batches =
        [transaction 0 0 2 4, transaction 1 0 1 4, transaction 2 1 1 1] := rfl
    rw [hall] at htx
    simp only [List.mem_cons, List.not_mem_nil, or_false] at htx
    rcases htx with rfl | rfl | rfl
    · exact ⟨⟨.sendPayment, 0, 2, Double.ofBits 0⟩, by decide +kernel, by decide, by decide⟩
    · exact ⟨⟨.sendPayment, 0, 1, Double.ofBits 0⟩, by decide +kernel, by decide, by decide⟩
    · exact ⟨⟨.depositChecking, 1, 1, Double.ofBits 0⟩, by decide +kernel, by decide, by decide⟩
  distinct := by decide +kernel

/-- `execute_batch`. -/
def batch (e : ℕ) : List Event :=
  [.batch e, .processWritebacks e (.inOrder batches), .processTransfers e (.inOrder batches)]

/-- The first payment sends its state and gets it back with the second batch. -/
def events : List Event :=
  batch 0 ++ [.sendTransfer 0, .deliverTransfer 0] ++ batch 1 ++
    [.sendWriteback 1, .deliverWriteback 0] ++ batch 0 ++ batch 1

theorem enough : ∀ event ∈ events, event.Enough batches := by
  unfold events batch
  simp [Event.Enough, Iteration.inOrder]

/-- Where the events lead to. -/
def final : System :=
  (System.run settings partition batches (System.initial partition stores)
    events).toOption.getD (System.initial partition stores)

theorem run_events : ∃ σ : Course partition, ∃ h, σ.Inv 2 batches final h ∧
    System.run settings partition batches (System.initial partition stores) events =
      .ok final := by
  obtain ⟨σ, sys, h, hok, hi, -⟩ :=
    reach settings partition stores batches admissible events enough
  have hfinal : final = sys := by
    unfold final
    rw [hok]
    rfl
  exact ⟨σ, h, hfinal ▸ hi, hfinal ▸ hok⟩

theorem processed_final : final.Processed 2 2 := by
  unfold System.Processed
  decide +kernel

theorem delivered_final : final.Delivered 2 := by
  unfold System.Delivered
  decide +kernel

/-- The second payment is the first in both of its queues, and finds account 1 locked by the
    deposit. -/
theorem isWaiting_final (e : ℕ) (he : e < 2) (a : ℕ) :
    (final.executors e).isWaiting a = true := by
  obtain ⟨σ, h, hi, -⟩ := run_events
  by_cases ha : partition a = some e
  · unfold partition at ha
    split at ha
    · obtain rfl := Option.some.inj ha
      have ha : a = 0 ∨ a = 1 := by omega
      rcases ha with rfl | rfl
      · decide +kernel
      · decide +kernel
    · split at ha
      · obtain rfl := Option.some.inj ha
        subst a
        decide +kernel
      · cases ha
  · unfold Executor.isWaiting
    rw [hi.pendingQueues_eq_none he ha]

theorem quiet_final : final.Quiet settings batches := by
  have hempty : ∀ e < 2, (final.executors e).incomingTransfers.entries = [] ∧
      (final.executors e).localTransfers.entries = [] ∧
        (final.executors e).incomingWritebacks.entries = [] ∧
          (final.executors e).localWritebacks.entries = [] := by decide +kernel
  exact System.quiet_of_isWaiting hempty isWaiting_final

theorem locked_final : (final.executors 0).accountLocks 1 = some ⟨0, 2⟩ := by decide +kernel

end LockSample

open ReturnSample (settings)
open LockSample

theorem drained_iff_sample : final.Drained 2 ↔
    System.Considerate settings partition batches events (System.initial partition stores) := by
  obtain ⟨sys, hok, hiff⟩ :=
    drained_iff settings partition stores batches admissible events enough
  obtain ⟨-, -, -, hfinal⟩ := run_events
  obtain rfl := Except.ok.inj (hfinal.symm.trans hok)
  exact hiff ⟨2, processed_final⟩ delivered_final quiet_final

/-- Two payments and a deposit after which the second payment and the deposit wait forever. -/
theorem not_drained :
    ¬ ∀ (cfg : Settings) (partition : Partition) (stores : ℕ → AccountStore)
        (batches : List Batch), Admissible cfg partition stores batches →
      ∀ events : List Event, (∀ event ∈ events, event.Enough batches) →
        ∃ sys, System.run cfg partition batches (System.initial partition stores) events =
            .ok sys ∧
          ((∃ k, sys.Processed cfg.numExecutors k) → sys.Delivered cfg.numExecutors →
            sys.Quiet cfg batches → sys.Drained cfg.numExecutors) := by
  intro hall
  obtain ⟨sys, hok, hdrained⟩ := hall settings partition stores batches admissible events enough
  obtain ⟨-, -, -, hfinal⟩ := run_events
  obtain rfl := Except.ok.inj (hfinal.symm.trans hok)
  have hnone := (hdrained ⟨2, processed_final⟩ delivered_final quiet_final 0 (by decide)).2 1
  rw [locked_final] at hnone
  cases hnone

end Sample

end DagBft.Writeback
