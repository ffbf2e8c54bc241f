/-
  What the executors of the data-fusion design guarantee together, in every run
  (`Fusion/System`).

  Proved:
  * `account_in_one_place`: the state of an account is in one store or in one transfer, and
    it is the state that the transactions executed on it so far leave.
  * `queues_drained`: when everything sent has arrived and no executor can process a
    transfer, all queues are empty.
  * `serial_equivalence`: no transaction is executed twice, and when nothing is left to do
    the stores are those of an execution in sequence order.
-/
import DagBft.Fusion.System

namespace DagBft.Fusion

open Worker Handover

/-- The transaction works on the account. -/
def WorksOn (txBytes : Bytes) (a : ℕ) : Prop :=
  ∃ sbTx, parseSmallbankPayload txBytes = some sbTx ∧ a ∈ sbTx.requiredAccounts

namespace System

/-- An executor has executed the transaction. -/
def HasExecuted (n : ℕ) (sys : System) (txBytes : Bytes) : Prop :=
  ∃ e < n, ∃ id ∈ (sys.executors e).executed, txIdOf txBytes = some id

/-- All executors have processed `k` batches. -/
def Processed (n : ℕ) (sys : System) (k : ℕ) : Prop := ∀ e < n, sys.taken e = k

/-- Every transfer that was sent has arrived. -/
def Delivered (n : ℕ) (sys : System) : Prop :=
  sys.network = [] ∧ ∀ e < n, (sys.executors e).txSendState = []

/-- A further call of `process_incoming_transfers` changes no queue. -/
def Stuck (cfg : Settings) (batches : List Batch) (sys : System) : Prop :=
  ∀ e < cfg.numExecutors, ∃ iter s', (Event.process e iter).Enough batches ∧
    (sys.executors e).processIncomingTransfers cfg iter = .ok s' ∧
    s'.pendingQueues = (sys.executors e).pendingQueues

end System

namespace Course

variable {cfg : Settings} {σ : Course cfg} {batches : List Batch} {sys : System}
  {h : State ℕ ℕ} {a e i j : ℕ}

theorem task_of_sequence (htasks : σ.tasks.map (fun t => t.tx.txBytes) = sequenceOf batches)
    {txBytes : Bytes} (hi : (sequenceOf batches)[i]? = some txBytes) :
    i < σ.tasks.length ∧ (σ.task i).tx.txBytes = txBytes := by
  rw [← htasks, List.getElem?_map, Option.map_eq_some_iff] at hi
  obtain ⟨t, ht, rfl⟩ := hi
  obtain ⟨hlt, rfl⟩ := List.getElem?_eq_some_iff.mp ht
  refine ⟨hlt, ?_⟩
  unfold task
  rw [List.getD_eq_getElem _ _ hlt]

theorem mem_accounts_iff (hi : i < σ.tasks.length) :
    WorksOn (σ.task i).tx.txBytes a ↔ a ∈ σ.accounts i := by
  rw [← requiredAccounts_eq hi]
  constructor
  · rintro ⟨sbTx, hparse, ha⟩
    rw [σ.payload _ (task_mem hi)] at hparse
    exact Option.some.inj hparse ▸ ha
  · exact fun ha => ⟨_, σ.payload _ (task_mem hi), ha⟩

theorem txIdOf_task (hi : i < σ.tasks.length) : txIdOf (σ.task i).tx.txBytes = some (σ.id i) := by
  unfold txIdOf
  rw [(σ.good _ (task_mem hi)).header]
  rfl

theorem target_lt (hi : i < σ.tasks.length) : σ.plan.target i < cfg.numExecutors :=
  (σ.good _ (task_mem hi)).target_lt

theorem owner_lt (ha : (σ.initial a).isSome) (j : ℕ) : σ.plan.owner j a < cfg.numExecutors := by
  induction j with
  | zero =>
      obtain ⟨o, ho⟩ := Option.isSome_iff_exists.mp ha
      have hlt := σ.owned a o ho
      show σ.initial.ownerD a < _
      simpa [Partition.ownerD, ho] using hlt
  | succ j ih =>
      rw [Plan.owner]
      split
      · rename_i hmem
        exact target_lt (lt_of_mem hmem)
      · exact ih

/-- Executed is what the target is through with. -/
theorem Inv.hasExecuted_iff (hi : σ.Inv batches sys h) (hjN : j < σ.tasks.length) :
    sys.HasExecuted cfg.numExecutors (σ.task j).tx.txBytes ↔ h.Done (σ.plan.target j) j := by
  unfold System.HasExecuted
  rw [txIdOf_task hjN]
  constructor
  · rintro ⟨e, he, id, hmem, hid⟩
    obtain ⟨k, hkN, hk, ht, hd⟩ := ((hi.site e he).mem_executed id).mp hmem
    obtain rfl := id_injective hkN hjN (hk.trans (Option.some.inj hid).symm)
    rw [ht]
    exact hd
  · intro hd
    exact ⟨σ.plan.target j, target_lt hjN, σ.id j,
      ((hi.site _ (target_lt hjN)).mem_executed _).mpr ⟨j, hjN, rfl, rfl, hd⟩, rfl⟩

/-! ## One place for each account -/

theorem filterMap_range_none {α : Type} {f : ℕ → Option α} {n : ℕ} (h : ∀ e < n, f e = none) :
    (List.range n).filterMap f = [] := by
  rw [List.filterMap_eq_nil_iff]
  exact fun e he => h e (List.mem_range.mp he)

theorem filterMap_range_single {α : Type} {f : ℕ → Option α} {n : ℕ} {v : α} (he : e < n)
    (hself : f e = some v) (hothers : ∀ e' < n, e' ≠ e → f e' = none) :
    (List.range n).filterMap f = [v] := by
  induction n with
  | zero => omega
  | succ n ih =>
      rw [List.range_succ, List.filterMap_append]
      by_cases hn : e = n
      · subst hn
        rw [filterMap_range_none fun e' he' => hothers e' (by omega) (by omega)]
        simp [hself]
      · rw [ih (by omega) fun e' he' => hothers e' (by omega)]
        simp [hothers n (by omega) (Ne.symm hn)]

theorem Inv.accountStore (hi : σ.Inv batches sys h) (he : e < cfg.numExecutors) (a : ℕ) :
    (sys.executors e).accountStore a =
      if h.loc a = .store e then σ.value (h.front a) a else none := by
  rw [(hi.site e he).store]
  rfl

/-- The only copy of the state of an account. -/
theorem Inv.copies_eq (hi : σ.Inv batches sys h) (ha : (σ.initial a).isSome) {v : AccountState}
    (hv : σ.value (h.front a) a = some v) : sys.copies cfg.numExecutors a = {v} := by
  unfold System.copies
  rw [hi.traffic a]
  cases hl : h.loc a with
  | store e =>
      have he : e < cfg.numExecutors := by
        rw [← hi.inv.store a e hl]
        exact owner_lt ha _
      rw [filterMap_range_single he (v := v), onTheWay_of_store hl]
      · rfl
      · rw [hi.accountStore he, if_pos hl, hv]
      · intro e' he' hne
        rw [hi.accountStore he', hl, if_neg (by simpa using Ne.symm hne)]
  | moving j =>
      rw [filterMap_range_none fun e he => by rw [hi.accountStore he, hl, if_neg (by simp)]]
      simp [onTheWay, hl, hv]

end Course

/-- In every state that the executors reach, the state of each account is in exactly one place:
    in one store, or in one transfer that is queued, in the network or received and not yet
    consumed. It is what the transactions on the account leave that have been executed, in
    sequence order. -/
theorem account_in_one_place (cfg : Settings) (partition : Partition)
    (stores : ℕ → AccountStore) (batches : List Batch)
    (hadm : Admissible cfg partition stores batches) (events : List Event)
    (henough : ∀ event ∈ events, event.Enough batches) :
    ∃ sys, System.run cfg batches (System.initial partition stores) events = .ok sys ∧
      ∀ a, (partition a).isSome → ∃ v k final, sys.copies cfg.numExecutors a = {v} ∧
        executeAll ((sequenceOf batches).take k) (unionStore partition stores) = .ok final ∧
        final a = some v ∧
        ∀ (i : ℕ) (txBytes : Bytes), (sequenceOf batches)[i]? = some txBytes →
          WorksOn txBytes a → (sys.HasExecuted cfg.numExecutors txBytes ↔ i < k) := by
  obtain ⟨σ, sys, h, hok, hi, rfl, hstore, htasks⟩ :=
    reach cfg partition stores batches hadm events henough
  refine ⟨sys, hok, fun a ha => ?_⟩
  obtain ⟨v, hv⟩ := Option.isSome_iff_exists.mp ((Course.isSome_value (h.front a) a).mpr ha)
  refine ⟨v, h.front a, σ.value (h.front a), hi.copies_eq ha hv, ?_, hv, ?_⟩
  · rw [← htasks, ← hstore]
    exact Course.executeAll_take _
  · intro i txBytes hseq hworks
    obtain ⟨hiN, rfl⟩ := Course.task_of_sequence htasks hseq
    rw [hi.hasExecuted_iff hiN]
    exact hi.inv.ran i a ((Course.mem_accounts_iff hiN).mp hworks)

/-! ### A payment between two executors -/

namespace SerialSample

open AgreementSample

/-- Each account is with its executor. -/
def stores (e : ℕ) : AccountStore := fun a => if partition a = some e then some ⟨100, 100⟩ else none

theorem isSome_stores (e a : ℕ) : (stores e a).isSome ↔ partition a = some e := by
  unfold stores
  split <;> simp_all

theorem admissible : Admissible settings partition stores batches where
  owned := owned_partition
  stores := isSome_stores
  wellFormed := wellFormed_batches
  distinct := List.nodup_singleton _

def iteration : Iteration := { (default : Iteration) with fuel := 3 }

/-- Executor 1 sends account 1, executor 0 waits for it. -/
def events : List Event :=
  [.batch 0 iteration, .process 0 iteration, .batch 1 iteration, .process 1 iteration, .send 1,
    .deliver 0, .process 0 iteration]

theorem enough : ∀ event ∈ events, event.Enough batches := by
  have hlen : (sequenceOf batches).length = 1 := rfl
  unfold events
  simp [Event.Enough, hlen, iteration]

end SerialSample

open AgreementSample SerialSample

theorem account_in_one_place_sample :
    ∃ sys, System.run settings batches (System.initial partition stores) events = .ok sys ∧
      ∀ a, (partition a).isSome → ∃ v k final, sys.copies 2 a = {v} ∧
        executeAll ((sequenceOf batches).take k) (unionStore partition stores) = .ok final ∧
        final a = some v ∧
        ∀ (i : ℕ) (txBytes : Bytes), (sequenceOf batches)[i]? = some txBytes →
          WorksOn txBytes a → (sys.HasExecuted 2 txBytes ↔ i < k) :=
  account_in_one_place settings partition stores batches admissible events enough

/-! ## Nothing waits for ever -/

namespace Course

variable {cfg : Settings} {σ : Course cfg} {batches : List Batch} {sys : System}
  {h : State ℕ ℕ} {a e i j : ℕ}

theorem offset_le (batches : List Batch) (k : ℕ) :
    offset batches k ≤ (sequenceOf batches).length := by
  unfold offset
  conv_rhs => rw [← List.take_append_drop k batches]
  unfold sequenceOf
  rw [List.flatMap_append, List.length_append]
  exact Nat.le_add_right _ _

theorem length_tasks_of_map (htasks : σ.tasks.map (fun t => t.tx.txBytes) = sequenceOf batches) :
    σ.tasks.length = (sequenceOf batches).length := by
  rw [← htasks, List.length_map]

/-- A transaction that is held back is in a queue. -/
theorem pending_mem_queue (hi : State.Inv σ.plan h) (hj : j ∈ h.held e) :
    ∃ a, σ.pending e j ∈ σ.queue e (h.held e) a := by
  obtain ⟨a, ha⟩ := List.exists_mem_of_ne_nil _ (hi.touch e j hj)
  exact ⟨a, mem_queue.mpr ⟨j, hj, ha, rfl⟩⟩

theorem mem_held_of_queues {held' : List ℕ} (hi : State.Inv σ.plan h)
    (hlt : ∀ i ∈ held', i < σ.tasks.length) (hq : σ.queues e held' = σ.queues e (h.held e))
    (hj : j ∈ h.held e) : j ∈ held' := by
  obtain ⟨a, ha⟩ := pending_mem_queue hi hj
  have hqa := congrFun hq a
  unfold queues at hqa
  rw [if_neg (List.ne_nil_of_mem ha)] at hqa
  split at hqa
  · cases hqa
  · rw [← Option.some.inj hqa] at ha
    obtain ⟨i, hmem, -, heq⟩ := mem_queue.mp ha
    have hid : σ.id i = σ.id j := congrArg (fun p => p.txHeader.id) heq.symm
    exact id_injective (hlt i hmem) (lt_of_held hi hj) hid ▸ hmem

/-- What an account is on its way with has been received, if everything sent has arrived. -/
theorem Inv.received_of_delivered (hi : σ.Inv batches sys h)
    (hdel : sys.Delivered cfg.numExecutors) (hl : h.loc a = .moving j) :
    a ∈ (((sys.executors (σ.plan.target j)).drainedIncomingTransfers.extend
      (sys.executors (σ.plan.target j)).incomingTransfers).get (σ.id j)).map
        StateTransfer.srcAccountId := by
  have hcell := (hi.inv.moving a j hl).1
  obtain ⟨v, hv⟩ := Option.isSome_iff_exists.mp (isSome_value_of_mem (h.front a) hcell)
  have hmem : (⟨⟨σ.id j, a, v⟩, σ.plan.target j⟩ : StateTransferRequest) ∈
      sys.transfers cfg.numExecutors := by
    have hway := mem_onTheWay.mpr ⟨j, v, hl, hv, rfl⟩
    rw [← hi.traffic a] at hway
    exact Multiset.mem_of_mem_filter hway
  unfold System.transfers at hmem
  rw [hdel.1, Multiset.coe_nil, add_zero, Multiset.mem_sum] at hmem
  obtain ⟨e, he, hmem⟩ := hmem
  have he := Finset.mem_range.mp he
  unfold Executor.transfers at hmem
  rw [hdel.2 e he, Multiset.coe_nil, zero_add, (hi.site e he).executorId] at hmem
  obtain ⟨t, ht, heq⟩ := Multiset.mem_map.mp hmem
  obtain ⟨ht', rfl⟩ := StateTransferRequest.mk.inj heq
  have hsite := hi.site _ he
  refine List.mem_map.mpr ⟨⟨σ.id j, a, v⟩, ?_, rfl⟩
  refine (hsite.drained.extend hsite.incoming).mem_get (t := ⟨σ.id j, a, v⟩) ?_
  subst ht'
  rw [TransferMap.all_extend, add_comm]
  exact ht

/-- An executor whose queues do not change has nothing that is ready. -/
theorem Inv.not_ready (hi : σ.Inv batches sys h)
    (htasks : σ.tasks.map (fun t => t.tx.txBytes) = sequenceOf batches)
    (hstuck : sys.Stuck cfg batches) (he : e < cfg.numExecutors) :
    ∀ id ∈ (sys.executors e).drainedIncomingTransfers.extend (sys.executors e).incomingTransfers,
      ¬ σ.Ready h e ((sys.executors e).drainedIncomingTransfers.extend
        (sys.executors e).incomingTransfers) id := by
  obtain ⟨iter, s', henough, hok, hq⟩ := hstuck e he
  have hfuel : 2 * σ.tasks.length < iter.fuel := by
    rw [length_tasks_of_map htasks]
    exact henough
  obtain ⟨s'', h', hok', -, -, hr, -, hor⟩ :=
    processIncomingTransfers_spec hfuel (hi.running he) (hi.idle e he)
  obtain rfl := Except.ok.inj (hok.symm.trans hok')
  refine hor.resolve_left fun hlt => ?_
  -- the queues are the same, so the same transactions are held back
  have hsub : h.held e ⊆ h'.held e := fun j hj =>
    mem_held_of_queues hi.inv (fun i hi' => lt_of_held hr.inv hi')
      (by rw [← hr.site.queues, hq, (hi.site e he).queues]) hj
  have := (List.subperm_of_subset ((hi.inv.sorted e).imp ne_of_lt) hsub).length_le
  omega

section Settled

variable {k : ℕ} (hi : σ.Inv batches sys h) (hk : sys.Processed cfg.numExecutors k)

include hi hk

theorem Inv.taken_eq (he : e < cfg.numExecutors) : h.taken e = offset batches k := by
  rw [hi.taken e he, hk e he]

theorem Inv.taken_le (e : ℕ) : h.taken e ≤ offset batches k := by
  by_cases he : e < cfg.numExecutors
  · rw [hi.taken_eq hk he]
  · rw [(hi.others e (Nat.le_of_not_lt he)).1]
    exact Nat.zero_le _

theorem Inv.held_eq_nil
    (htasks : σ.tasks.map (fun t => t.tx.txBytes) = sequenceOf batches)
    (hdel : sys.Delivered cfg.numExecutors) (hstuck : sys.Stuck cfg batches) (e : ℕ) :
    h.held e = [] := by
  by_contra hne
  have hN : ∀ j < offset batches k, j < σ.tasks.length := fun j hj => by
    rw [length_tasks_of_map htasks]
    exact lt_of_lt_of_le hj (offset_le batches k)
  obtain ⟨e, j, hj, hhead, hor⟩ := hi.inv.progress (n := offset batches k)
    (fun e j hj => lt_of_lt_of_le (hi.inv.lt e j hj) (hi.taken_le hk e))
    (fun j hj => hi.taken_eq hk (target_lt (hN j hj)))
    (fun j hj a ha => hi.taken_eq hk
      (owner_lt ((σ.good _ (task_mem (hN j hj))).known a ha) j)) ⟨e, hne⟩
  have he : e < cfg.numExecutors := by
    by_contra hge
    rw [(hi.others e (Nat.le_of_not_lt hge)).2] at hj
    cases hj
  rcases hor with ⟨ht, harr⟩ | ⟨-, hpres⟩
  · by_cases howner : ∀ a ∈ σ.accounts j, σ.plan.owner j a = e
    · refine hi.idle e he j ⟨hj, hhead, fun a ha => ?_⟩
      have ha := Plan.mem_cells_of_mem_touches ha
      exact (harr a ha).1 (howner a ha)
    · -- everything that it waits for has arrived
      push Not at howner
      obtain ⟨a, ha, ho⟩ := howner
      have hrec : ∀ a ∈ σ.accounts j, σ.plan.owner j a ≠ e →
          a ∈ (((sys.executors e).drainedIncomingTransfers.extend
            (sys.executors e).incomingTransfers).get (σ.id j)).map
              StateTransfer.srcAccountId := by
        intro a ha ho
        have := hi.received_of_delivered hdel ((harr a ha).2 ho)
        rwa [ht] at this
      refine hi.not_ready htasks hstuck he (σ.id j) (TransferMap.mem_of_get_ne_nil ?_)
        ⟨j, hj, rfl, ht, hhead, fun a ha => (harr a ha).1, hrec⟩
      intro hnil
      have := hrec a ha ho
      rw [hnil] at this
      cases this
  · exact hi.idle e he j ⟨hj, hhead, hpres⟩

end Settled

end Course

/-- When all executors have processed the same batches, every transfer that was sent has arrived
    and no executor makes progress by processing transfers, nothing is left: all queues are
    empty and no transfer is unconsumed. -/
theorem queues_drained (cfg : Settings) (partition : Partition) (stores : ℕ → AccountStore)
    (batches : List Batch) (hadm : Admissible cfg partition stores batches) (events : List Event)
    (henough : ∀ event ∈ events, event.Enough batches) :
    ∃ sys, System.run cfg batches (System.initial partition stores) events = .ok sys ∧
      ((∃ k, sys.Processed cfg.numExecutors k) → sys.Delivered cfg.numExecutors →
        sys.Stuck cfg batches → ∀ e < cfg.numExecutors,
          (∀ a, (sys.executors e).pendingQueues a = none) ∧
          ∀ id, (sys.executors e).incomingTransfers.get id = [] ∧
            (sys.executors e).drainedIncomingTransfers.get id = []) := by
  obtain ⟨σ, sys, h, hok, hi, rfl, hstore, htasks⟩ :=
    reach cfg partition stores batches hadm events henough
  refine ⟨sys, hok, fun ⟨k, hk⟩ hdel hstuck e he => ?_⟩
  have hheld := hi.held_eq_nil hk htasks hdel hstuck
  have hN : ∀ j < Course.offset batches k, j < σ.tasks.length := fun j hj => by
    rw [Course.length_tasks_of_map htasks]
    exact lt_of_lt_of_le hj (Course.offset_le batches k)
  refine ⟨fun a => ?_, fun id => ?_⟩
  · rw [(hi.site e he).queues, hheld]
    simp [Course.queues, Course.queue]
  · -- no account is on its way
    have hnone : ∀ t : StateTransfer, t ∉ (sys.executors e).incomingTransfers.all +
        (sys.executors e).drainedIncomingTransfers.all := by
      intro t ht
      have hmem : (⟨t, (sys.executors e).executorId⟩ : StateTransferRequest) ∈
          sys.transfers cfg.numExecutors :=
        Course.mem_transfers he (Multiset.mem_add.mpr (Or.inr (Multiset.mem_map_of_mem _ ht)))
      have hway : (⟨t, (sys.executors e).executorId⟩ : StateTransferRequest) ∈
          σ.onTheWay h t.srcAccountId := by
        rw [← hi.traffic]
        exact Multiset.mem_filter.mpr ⟨hmem, rfl⟩
      obtain ⟨o, ho⟩ := hi.inv.loc_eq_store hheld (hi.taken_le hk)
        (fun j hj => hi.taken_eq hk (Course.target_lt (hN j hj))) t.srcAccountId
      rw [Course.onTheWay_of_store ho] at hway
      exact absurd hway (Multiset.notMem_zero _)
    rw [List.eq_nil_iff_forall_not_mem, List.eq_nil_iff_forall_not_mem]
    exact ⟨fun t ht => hnone t (Multiset.mem_add.mpr (Or.inl (TransferMap.mem_all id ht))),
      fun t ht => hnone t (Multiset.mem_add.mpr (Or.inr (TransferMap.mem_all id ht)))⟩

/-- An account that does not exist has no queue. -/
theorem pendingQueues_eq_none (cfg : Settings) (partition : Partition)
    (stores : ℕ → AccountStore) (batches : List Batch)
    (hadm : Admissible cfg partition stores batches) (events : List Event)
    (henough : ∀ event ∈ events, event.Enough batches) (sys : System)
    (hrun : System.run cfg batches (System.initial partition stores) events = .ok sys) {e a : ℕ}
    (he : e < cfg.numExecutors) (ha : partition a = none) :
    (sys.executors e).pendingQueues a = none := by
  obtain ⟨σ, sys', h, hok, hi, rfl, -, -⟩ :=
    reach cfg partition stores batches hadm events henough
  obtain rfl : sys = sys' := Except.ok.inj (hrun.symm.trans hok)
  have hqueue : σ.queue e (h.held e) a = [] := by
    refine List.eq_nil_iff_forall_not_mem.mpr fun p hp => ?_
    obtain ⟨j, -, htouch, -⟩ := Course.mem_queue.mp hp
    have hsome := Course.isSome_value_of_mem 0 (Plan.mem_cells_of_mem_touches htouch)
    rw [Course.isSome_value, ha] at hsome
    cases hsome
  rw [(hi.site e he).queues, Course.queues, if_pos hqueue]

namespace SerialSample

def final : System :=
  (System.run settings batches (System.initial partition stores) events).toOption.getD
    (System.initial partition stores)

theorem run_final :
    System.run settings batches (System.initial partition stores) events = .ok final :=
  eq_ok_of_isOk _ (by decide +kernel)

/-- A queue is empty if those of the accounts 0 and 1 are. -/
theorem queue_eq_none {events : List Event} (henough : ∀ event ∈ events, event.Enough batches)
    {sys : System}
    (hrun : System.run settings batches (System.initial partition stores) events = .ok sys)
    {e : ℕ} (he : e < 2) (htwo : ∀ a < 2, (sys.executors e).pendingQueues a = none) (a : ℕ) :
    (sys.executors e).pendingQueues a = none := by
  by_cases ha : a < 2
  · exact htwo a ha
  · exact pendingQueues_eq_none settings partition stores batches admissible events henough sys
      hrun he (if_neg ha)

theorem queues_final (e : ℕ) (he : e < 2) (a : ℕ) :
    (final.executors e).pendingQueues a = none := by
  have htwo : ∀ e < 2, ∀ a < 2, (final.executors e).pendingQueues a = none := by decide +kernel
  exact queue_eq_none enough run_final he (htwo e he) a

theorem processed_final : final.Processed 2 1 := by
  unfold System.Processed
  decide +kernel

theorem transfers_final : final.transfers 2 = 0 := by decide +kernel

theorem delivered_final : final.Delivered 2 := by
  unfold System.Delivered
  decide +kernel

/-- A further call finds nothing to do. -/
theorem stuck_final : final.Stuck settings batches := by
  intro e he
  have hok : ∀ e < 2, ((final.executors e).processIncomingTransfers settings iteration).isOk =
      true := by
    decide +kernel
  have hqueues : ∀ e < 2, ∀ a < 2, (((final.executors e).processIncomingTransfers settings
      iteration).toOption.getD (final.executors e)).pendingQueues a = none := by
    decide +kernel
  have henough : (Event.process e iteration).Enough batches := by
    show 2 * 1 < 3
    omega
  have hall : ∀ event ∈ events ++ [.process e iteration], event.Enough batches := by
    intro event hevent
    rcases List.mem_append.mp hevent with hevent | hevent
    · exact enough event hevent
    · rw [List.mem_singleton.mp hevent]
      exact henough
  have hprocess := eq_ok_of_isOk (final.executors e) (hok e he)
  have hempty := hqueues e he
  generalize ((final.executors e).processIncomingTransfers settings iteration).toOption.getD
    (final.executors e) = s at hprocess hempty
  have hrun : System.run settings batches (System.initial partition stores)
      (events ++ [.process e iteration]) = .ok (final.setExecutor e s) := by
    rw [System.run_snoc run_final]
    simp only [System.step, if_pos he, hprocess]
    rfl
  have hself : (final.setExecutor e s).executors e = s := Function.update_self _ _ _
  refine ⟨iteration, s, henough, hprocess, funext fun a => ?_⟩
  rw [queues_final e he, ← hself]
  rw [← hself] at hempty
  exact queue_eq_none hall hrun he hempty a

end SerialSample

/-- Executor 0 has executed the payment, nobody waits any more. -/
theorem queues_drained_sample :
    ∃ sys, System.run settings batches (System.initial partition stores) events = .ok sys ∧
      ∀ e < 2, (∀ a, (sys.executors e).pendingQueues a = none) ∧
        ∀ id, (sys.executors e).incomingTransfers.get id = [] ∧
          (sys.executors e).drainedIncomingTransfers.get id = [] := by
  obtain ⟨sys, hok, hdrained⟩ :=
    queues_drained settings partition stores batches admissible events enough
  obtain rfl : final = sys := Except.ok.inj (run_final.symm.trans hok)
  exact ⟨final, hok, hdrained ⟨1, processed_final⟩ delivered_final stuck_final⟩

/-! ## Executing in sequence order -/

/-- No transaction is executed twice, or by two executors. When all batches are processed, no
    transaction is pending and no transfer is on its way, every transaction has been executed
    and the stores together are what executing one transaction after the other leaves. -/
theorem serial_equivalence (cfg : Settings) (partition : Partition) (stores : ℕ → AccountStore)
    (batches : List Batch) (hadm : Admissible cfg partition stores batches) (events : List Event)
    (henough : ∀ event ∈ events, event.Enough batches) :
    ∃ sys, System.run cfg batches (System.initial partition stores) events = .ok sys ∧
      ((List.range cfg.numExecutors).flatMap fun e => (sys.executors e).executed).Nodup ∧
      (sys.Processed cfg.numExecutors batches.length →
        (∀ e < cfg.numExecutors, ∀ a, ((sys.executors e).pendingQueues a).getD [] = []) →
        sys.transfers cfg.numExecutors = 0 →
          (∀ txBytes ∈ sequenceOf batches, sys.HasExecuted cfg.numExecutors txBytes) ∧
          ∃ final, executeAll (sequenceOf batches) (unionStore partition stores) = .ok final ∧
            ∀ a v, (∃ e < cfg.numExecutors, (sys.executors e).accountStore a = some v) ↔
              final a = some v) := by
  obtain ⟨σ, sys, h, hok, hi, rfl, hstore, htasks⟩ :=
    reach cfg partition stores batches hadm events henough
  refine ⟨sys, hok, ?_, fun hk hqueues _ => ?_⟩
  · rw [List.nodup_flatMap]
    refine ⟨fun e he => (hi.site e (List.mem_range.mp he)).nodup,
      List.nodup_range.imp_of_mem fun {e e'} he he' hne id hid hid' => hne ?_⟩
    obtain ⟨j, hjN, hj, rfl, -⟩ :=
      ((hi.site e (List.mem_range.mp he)).mem_executed id).mp hid
    obtain ⟨j', hjN', hj', rfl, -⟩ :=
      ((hi.site e' (List.mem_range.mp he')).mem_executed id).mp hid'
    rw [Course.id_injective hjN hjN' (hj.trans hj'.symm)]
  · have hlen := Course.length_tasks_of_map htasks
    have hoffset : Course.offset batches batches.length = σ.tasks.length := by
      rw [hlen]
      unfold Course.offset
      rw [List.take_length]
    have hheld : ∀ e, h.held e = [] := by
      intro e
      by_cases he : e < cfg.numExecutors
      · rw [List.eq_nil_iff_forall_not_mem]
        intro j hj
        obtain ⟨a, ha⟩ := Course.pending_mem_queue hi.inv hj
        have hq := hqueues e he a
        rw [(hi.site e he).queues, Course.queues, if_neg (List.ne_nil_of_mem ha)] at hq
        exact List.ne_nil_of_mem ha hq
      · exact (hi.others e (Nat.le_of_not_lt he)).2
    have htarget : ∀ j < σ.tasks.length, h.taken (σ.plan.target j) = σ.tasks.length :=
      fun j hj => (hi.taken_eq hk (Course.target_lt hj)).trans hoffset
    have hle : ∀ e, h.taken e ≤ σ.tasks.length := fun e => hoffset ▸ hi.taken_le hk e
    refine ⟨fun txBytes hmem => ?_, σ.value σ.tasks.length, ?_, fun a v => ?_⟩
    · obtain ⟨j, hj⟩ := List.getElem?_of_mem hmem
      obtain ⟨hjN, rfl⟩ := Course.task_of_sequence htasks hj
      rw [hi.hasExecuted_iff hjN]
      exact ⟨by rw [htarget j hjN]; exact hjN, by rw [hheld]; exact List.not_mem_nil⟩
    · have := Course.executeAll_take (σ := σ) σ.tasks.length
      rwa [htasks, hlen, List.take_length, hstore, ← hlen] at this
    · rw [hi.inv.eq_front hheld hle htarget (f := σ.value)
        (fun j a hna => Course.value_of_notMem hna) a]
      constructor
      · rintro ⟨e, he, hv⟩
        rw [hi.accountStore he] at hv
        split at hv
        · exact hv
        · cases hv
      · intro hv
        have ha : (σ.initial a).isSome :=
          (Course.isSome_value (h.front a) a).mp (by rw [hv]; rfl)
        obtain ⟨e, hl⟩ := hi.inv.loc_eq_store hheld hle htarget a
        have he : e < cfg.numExecutors := by
          rw [← hi.inv.store a e hl]
          exact Course.owner_lt ha _
        exact ⟨e, he, by rw [hi.accountStore he, if_pos hl, hv]⟩

theorem serial_equivalence_sample :
    ∃ sys, System.run settings batches (System.initial partition stores) events = .ok sys ∧
      ((List.range 2).flatMap fun e => (sys.executors e).executed).Nodup ∧
      (∀ txBytes ∈ sequenceOf batches, sys.HasExecuted 2 txBytes) ∧
      ∃ store, executeAll (sequenceOf batches) (unionStore partition stores) = .ok store ∧
        ∀ a v, (∃ e < 2, (sys.executors e).accountStore a = some v) ↔ store a = some v := by
  obtain ⟨sys, hok, hnodup, hserial⟩ :=
    serial_equivalence settings partition stores batches admissible events enough
  obtain rfl : final = sys := Except.ok.inj (run_final.symm.trans hok)
  have hqueues : ∀ e < 2, ∀ a, ((final.executors e).pendingQueues a).getD [] = [] := by
    intro e he a
    rw [queues_final e he]
    rfl
  exact ⟨final, hok, hnodup, hserial processed_final hqueues transfers_final⟩

end DagBft.Fusion
