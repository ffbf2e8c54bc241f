/-
  The pending queues of the executors of the data-fusion design, with payments of an account
  to itself.

  Proved, for every run in which each such payment is scheduled on the executor that owns the
  account (`SelfPaymentsStay`): `queues_consistent`, that nothing panics, and that a pending
  transaction is in the queues of exactly the accounts it was enqueued on, all of them in
  sequence order. Neither scheduler keeps such payments with the owner at all times.
  `not_queues_consistent`: an executor that has to send the account of such a payment panics,
  as it removes the account from its store twice.
-/
import DagBft.Fusion.Serial

namespace DagBft.Fusion

open Worker Handover

/-! ## Conditions on the schedule of every batch -/

/-- `P` holds of the schedule of every batch, each from the partition that the earlier ones
    leave. -/
def Throughout (cfg : Settings) (P : Partition → List Scheduled → Prop) :
    Partition → List Batch → Prop
  | _, [] => True
  | partition, b :: batches =>
      ∀ txs, parseAndScheduleBatchTransactions cfg default partition b.transactions = .ok txs →
        P partition txs ∧ Throughout cfg P (partition.movedBy txs) batches

/-- A payment of an account to itself goes to the executor that owns the account when the
    turn of the transaction comes. -/
def StaysFrom : Partition → List Scheduled → Prop
  | _, [] => True
  | partition, tx :: txs =>
      (∀ a, tx.requiredAccounts = [a, a] → partition a = some tx.target) ∧
        StaysFrom (partition.move tx.requiredAccounts tx.target) txs

/-- No payment of an account to itself makes the account move. -/
def SelfPaymentsStay (cfg : Settings) : Partition → List Batch → Prop :=
  Throughout cfg StaysFrom

section Throughout

variable {cfg : Settings} {P : Partition → List Scheduled → Prop} {partition : Partition}
  {batches : List Batch} {blocks : List (List Scheduled)}

theorem localitiesOf_injective {e : ℕ} {txs txs' : List Scheduled}
    (h : localitiesOf e partition txs = localitiesOf e partition txs') : txs = txs' := by
  have := congrArg (List.map Prod.fst) h
  rwa [map_fst_localitiesOf, map_fst_localitiesOf] at this

/-- What loop 1 makes of a batch is what the scheduler makes of it. -/
theorem parseAndSchedule_of_beginBatch {iter : Iteration} {s s' : Executor}
    {transactions : List Bytes} {txs : List Scheduled}
    (h : s.beginBatch cfg iter transactions =
      .ok (localitiesOf s.executorId s.statesSchedulePartition txs, s')) :
    parseAndScheduleBatchTransactions cfg default s.statesSchedulePartition transactions =
      .ok txs := by
  unfold Executor.beginBatch at h
  obtain ⟨txs', hparsed, h⟩ := bind_eq_ok.mp h
  obtain ⟨r, hlocalities, h⟩ := bind_eq_ok.mp h
  obtain ⟨-, rfl⟩ := scheduleLocalities_eq_ok.mp hlocalities
  have heq := localitiesOf_injective (Prod.mk.inj (Except.ok.inj h)).1
  rw [← parseAndSchedule_iter cfg iter default, hparsed, heq]

theorem Schedules.parseAndSchedule {b : Batch} {txs : List Scheduled}
    (hbegin : ∀ (iter : Iteration) (s : Executor), s.statesSchedulePartition = partition →
      s.beginBatch cfg iter b.transactions = .ok (localitiesOf s.executorId partition txs,
        { s with statesSchedulePartition := partition.movedBy txs })) :
    parseAndScheduleBatchTransactions cfg default partition b.transactions = .ok txs :=
  parseAndSchedule_of_beginBatch
    (s := ⟨0, fun _ => none, partition, fun _ => none, ∅, ∅, [], [], []⟩) (hbegin default _ rfl)

/-- An account list that is not without repetition is that of a payment to itself. -/
theorem Scheduled.Good.settled {initial : Partition} {n : ℕ} {tx : Scheduled}
    (hgood : tx.Good initial n)
    (h : ∀ a, tx.requiredAccounts = [a, a] → partition a = some tx.target) :
    Settled partition tx := by
  obtain ⟨sbTx, -, hreq⟩ := hgood.required
  unfold Settled
  unfold SmallBankTransaction.requiredAccounts at hreq
  split at hreq
  · by_cases hsame : sbTx.accountId = sbTx.destAccountId
    · rw [← hsame] at hreq
      refine Or.inr fun a ha => ?_
      rw [hreq] at ha
      have ha : a = sbTx.accountId := by simpa using ha
      rw [ha, Partition.ownerD, h _ hreq]
      rfl
    · exact Or.inl (by rw [hreq]; simpa using hsame)
  · exact Or.inl (by rw [hreq]; exact List.nodup_singleton _)

theorem settledFrom_of_stays {initial : Partition} {n : ℕ} {txs : List Scheduled}
    (hgood : ∀ tx ∈ txs, tx.Good initial n) (h : StaysFrom partition txs) :
    SettledFrom partition txs := by
  induction txs generalizing partition with
  | nil => exact trivial
  | cons tx txs ih =>
      rw [List.forall_mem_cons] at hgood
      exact ⟨hgood.1.settled h.1, ih hgood.2 h.2⟩

theorem Schedules.settledFrom {initial : Partition} {n : ℕ}
    (hs : Schedules cfg partition batches blocks)
    (hgood : ∀ txs ∈ blocks, ∀ tx ∈ txs, tx.Good initial n)
    (hstay : SelfPaymentsStay cfg partition batches) : SettledFrom partition blocks.flatten := by
  induction hs with
  | nil => exact trivial
  | @cons partition b batches txs blocks hbytes hbegin hrest ih =>
      rw [List.forall_mem_cons] at hgood
      obtain ⟨hstays, hlater⟩ := hstay txs (Schedules.parseAndSchedule hbegin)
      rw [List.flatten_cons, settledFrom_append]
      exact ⟨settledFrom_of_stays hgood.1 hstays, ih hgood.2 hlater⟩

end Throughout

/-! ## The queues -/

/-- The accounts that a transaction is enqueued on. -/
def PendingTransaction.enqueuedOn (p : PendingTransaction) : List ℕ :=
  match p.locality with
  | .migrateOut owned _ _ => owned
  | _ => p.requiredAccounts

namespace Executor

def queueOf (s : Executor) (account : ℕ) : List PendingTransaction :=
  (s.pendingQueues account).getD []

/-- The pending transactions are where they were put, in the order of the sequence. -/
structure QueuesConsistent (sequence : List Bytes) (s : Executor) : Prop where
  /-- A transaction is in the queues of exactly the accounts that it was enqueued on. -/
  enqueued : ∀ a, ∀ p ∈ s.queueOf a, ∀ a', (s.queueOf a').count p = p.enqueuedOn.count a'
  /-- It is in the sequence, and every queue is in its order. -/
  mem_sequence : ∀ a, ∀ p ∈ s.queueOf a, p.txBytes ∈ sequence
  ordered : ∀ a, (s.queueOf a).Pairwise fun p q =>
    sequence.idxOf p.txBytes ≤ sequence.idxOf q.txBytes
  /-- A queue that becomes empty is removed. -/
  ne_nil : ∀ a, s.pendingQueues a ≠ some []

end Executor

namespace Course

variable {cfg : Settings} {σ : Course cfg} {h : State ℕ ℕ} {e j a : ℕ} {held : List ℕ}
  {s : Executor}

theorem enqueuedOn_pending (hne : σ.plan.touches e j ≠ []) :
    (σ.pending e j).enqueuedOn = σ.plan.touches e j := by
  have hlocality := locality_eq (σ := σ) e j
  unfold PendingTransaction.enqueuedOn
  by_cases he : σ.plan.target j = e
  · have hreq : (σ.pending e j).requiredAccounts = σ.plan.touches e j := by
      rw [touches_of_target he]
      exact if_pos he
    rw [if_pos he] at hlocality
    split at hlocality
    · rw [show (σ.pending e j).locality = .local from hlocality, hreq]
    · rw [show (σ.pending e j).locality = .migrateIn _ from hlocality, hreq]
  · rw [if_neg he, if_neg hne] at hlocality
    rw [show (σ.pending e j).locality = .migrateOut _ _ _ from hlocality]

theorem pending_injective {i : ℕ} (hi : i < σ.tasks.length) (hj : j < σ.tasks.length)
    (h : σ.pending e i = σ.pending e j) : i = j :=
  id_injective hi hj (congrArg (fun p => p.txHeader.id) h)

/-- A transaction that is held back is in a queue as often as it names the account. -/
theorem count_queue (hnodup : held.Nodup) (hlt : ∀ i ∈ held, i < σ.tasks.length)
    (hj : j ∈ held) (a : ℕ) :
    (σ.queue e held a).count (σ.pending e j) = (σ.plan.touches e j).count a := by
  have hjN := hlt j hj
  -- of the others there is none
  have hothers : ∀ l : List ℕ, (∀ i ∈ l, i < σ.tasks.length) → j ∉ l →
      (σ.queue e l a).count (σ.pending e j) = 0 := by
    intro l hl hnot
    rw [List.count_eq_zero]
    intro hmem
    obtain ⟨i, hi, -, heq⟩ := mem_queue.mp hmem
    exact hnot (pending_injective hjN (hl i hi) heq ▸ hi)
  induction held with
  | nil => cases hj
  | cons i held ih =>
      rw [List.nodup_cons] at hnodup
      rw [List.forall_mem_cons] at hlt
      rw [queue_cons, List.count_append]
      by_cases hij : i = j
      · subst hij
        rw [hothers held hlt.2 hnodup.1, List.count_replicate_self, Nat.add_zero]
      · have hne : σ.pending e i ≠ σ.pending e j := fun heq =>
          hij (pending_injective hlt.1 hjN heq)
        have hmem : j ∈ held := (List.mem_cons.mp hj).resolve_left (Ne.symm hij)
        rw [ih hnodup.2 hlt.2 hmem, List.count_replicate, if_neg (by simpa using hne),
          Nat.zero_add]

theorem nodup_sequence : (σ.tasks.map fun t => t.tx.txBytes).Nodup := by
  -- different ids are those of different bytes
  have hids : (σ.tasks.map fun t => t.tx.txBytes).map txIdOf =
      (σ.tasks.map fun t => t.tx.header.id).map some := by
    rw [List.map_map, List.map_map]
    refine List.map_congr_left fun t ht => ?_
    show txIdOf t.tx.txBytes = some _
    unfold txIdOf
    rw [(σ.good t ht).header]
    rfl
  refine List.Nodup.of_map txIdOf ?_
  rw [hids]
  exact σ.distinct.map (Option.some_injective _)

theorem idxOf_task (hj : j < σ.tasks.length) :
    (σ.tasks.map fun t => t.tx.txBytes).idxOf (σ.task j).tx.txBytes = j := by
  have hlt : j < (σ.tasks.map fun t => t.tx.txBytes).length := by simpa using hj
  have hget : (σ.task j).tx.txBytes = (σ.tasks.map fun t => t.tx.txBytes)[j] := by
    unfold task
    rw [List.getD_eq_getElem _ _ hj, List.getElem_map]
  rw [hget, nodup_sequence.idxOf_getElem]

theorem queueOf_eq (hs : σ.Site h e s) (a : ℕ) : s.queueOf a = σ.queue e (h.held e) a := by
  unfold Executor.queueOf
  rw [hs.queues, queues]
  split
  · rename_i hnil
    rw [hnil]
    rfl
  · rfl

theorem Site.queuesConsistent (hi : State.Inv σ.plan h) (hs : σ.Site h e s) :
    s.QueuesConsistent (σ.tasks.map fun t => t.tx.txBytes) where
  enqueued a p hp a' := by
    rw [queueOf_eq hs] at hp ⊢
    obtain ⟨j, hj, -, rfl⟩ := mem_queue.mp hp
    rw [enqueuedOn_pending (hi.touch e j hj)]
    exact count_queue ((hi.sorted e).imp ne_of_lt) (fun i hi' => lt_of_held hi hi') hj a'
  mem_sequence a p hp := by
    rw [queueOf_eq hs] at hp
    obtain ⟨j, hj, -, rfl⟩ := mem_queue.mp hp
    exact List.mem_map_of_mem (task_mem (lt_of_held hi hj))
  ordered a := by
    rw [queueOf_eq hs, queue, List.pairwise_flatMap]
    refine ⟨fun i _ => List.pairwise_replicate.mpr (Or.inr le_rfl),
      (hi.sorted e).imp_of_mem fun {i i'} hmem hmem' hlt p hp q hq => ?_⟩
    rw [List.eq_of_mem_replicate hp, List.eq_of_mem_replicate hq]
    show List.idxOf (σ.task i).tx.txBytes _ ≤ List.idxOf (σ.task i').tx.txBytes _
    rw [idxOf_task (lt_of_held hi hmem), idxOf_task (lt_of_held hi hmem')]
    exact hlt.le
  ne_nil a := by
    rw [hs.queues]
    unfold Course.queues
    split
    · simp
    · rename_i hne
      simpa using hne

end Course

/-! ## No panic -/

section Main

variable (cfg : Settings) (partition : Partition) (stores : ℕ → AccountStore)
  (batches : List Batch)

theorem reach_stays (hstart : Startable cfg partition stores batches)
    (hstay : SelfPaymentsStay cfg partition batches) (events : List Event)
    (henough : ∀ event ∈ events, event.Enough batches) :
    ∃ (σ : Course cfg) (sys : System) (h : State ℕ ℕ),
      System.run cfg batches (System.initial partition stores) events = .ok sys ∧
      σ.Inv batches sys h ∧ σ.initial = partition ∧ σ.store = unionStore partition stores ∧
      σ.tasks.map (fun t => t.tx.txBytes) = sequenceOf batches := by
  obtain ⟨blocks, hs, hgood⟩ :=
    exists_schedules hstart.owned (fun _ => Iff.rfl) hstart.parses
  obtain ⟨σ, sys, h, hok, hi, hinitial, hstore, htasks⟩ := reach_settled cfg partition stores
    batches hstart hs hgood (hs.settledFrom hgood hstay) events henough
  exact ⟨σ, sys, h, hok, hi, hinitial, hstore, by rw [htasks, hs.map_txBytes]⟩

/-- In every run in which no payment of an account to itself is scheduled away from the owner
    of the account, no executor panics, and in every state it reaches the queues of each
    executor are consistent. -/
theorem queues_consistent (hstart : Startable cfg partition stores batches)
    (hstay : SelfPaymentsStay cfg partition batches) (events : List Event)
    (henough : ∀ event ∈ events, event.Enough batches) :
    ∃ sys, System.run cfg batches (System.initial partition stores) events = .ok sys ∧
      ∀ e < cfg.numExecutors, (sys.executors e).QueuesConsistent (sequenceOf batches) := by
  obtain ⟨σ, sys, h, hok, hi, -, -, htasks⟩ :=
    reach_stays cfg partition stores batches hstart hstay events henough
  refine ⟨sys, hok, fun e he => ?_⟩
  rw [← htasks]
  exact (hi.site e he).queuesConsistent hi.inv

end Main

/-! ### An account that pays itself -/

namespace QueuesSample

open AgreementSample SerialSample

/-- From account 0 to itself. -/
def selfPayment : Bytes := List.replicate 9 0 ++ [1] ++ List.replicate 16 0 ++ [4] ++
  List.replicate 8 0

/-- From account 1 to account 0. -/
def paymentBack : Bytes := List.replicate 17 0 ++ [1] ++ List.replicate 8 0 ++ [4] ++
  List.replicate 8 0

/-- Account 0 pays account 1, and then itself. -/
def staying : List Batch := [⟨[7], [payment, selfPayment]⟩]

/-- Account 0 has moved to executor 1 when it pays itself. -/
def leaving : List Batch := [⟨[7], [paymentBack, selfPayment]⟩]

theorem parses_of_pair {tx : Bytes} {sbTx : SmallBankTransaction}
    (h : parseSmallbankPayload tx = some sbTx) (hlt : ∀ a ∈ sbTx.requiredAccounts, a < 2) :
    Parses partition tx :=
  ⟨sbTx, h, fun a ha => by simp [partition, hlt a ha]⟩

theorem startable {first : Bytes} (hfirst : Parses partition first)
    (hid : txIdOf first ≠ txIdOf selfPayment) :
    Startable settings partition stores [⟨[7], [first, selfPayment]⟩] where
  owned := owned_partition
  stores := isSome_stores
  parses b hb tx htx := by
    rw [List.mem_singleton.mp hb] at htx
    rcases List.mem_pair.mp htx with rfl | rfl
    · exact hfirst
    · exact parses_of_pair rfl (by decide)
  distinct := by
    show [txIdOf first, txIdOf selfPayment].Nodup
    simpa using hid

/-- Both payments go to executor 0. -/
def schedule : List Scheduled :=
  [⟨payment, ⟨0, ⟨0, 0⟩⟩, [0, 1], 0⟩, ⟨selfPayment, ⟨0, ⟨0, 1⟩⟩, [0, 0], 0⟩]

theorem staying_stays : SelfPaymentsStay settings partition staying := by
  intro txs htxs
  have hschedule : (parseAndScheduleBatchTransactions settings default partition
      [payment, selfPayment]).toOption = some schedule := by decide +kernel
  rw [show parseAndScheduleBatchTransactions settings default partition
    [payment, selfPayment] = .ok txs from htxs] at hschedule
  obtain rfl : txs = schedule := Option.some.inj hschedule
  refine ⟨⟨fun a ha => ?_, fun a ha => ?_, trivial⟩, trivial⟩
  · have ha : [0, 1] = [a, a] := ha
    simp at ha
    omega
  · have ha : [0, 0] = [a, a] := ha
    obtain rfl : 0 = a := by simpa using ha
    rfl

theorem enough_pair {first : Bytes} {events : List Event} (h : ∀ event ∈ events, ∀ e iter,
    event = .process e iter → iter.fuel = 5) :
    ∀ event ∈ events, event.Enough [⟨[7], [first, selfPayment]⟩] := by
  intro event hmem
  cases event with
  | process e iter =>
      have hfuel := h _ hmem e iter rfl
      show 2 * 2 < iter.fuel
      omega
  | _ => trivial

def iteration : Iteration := { (default : Iteration) with fuel := 5 }

/-- Executor 0 sends account 0 to executor 1, which would have to send it back. -/
def backAndForth : List Event :=
  [.batch 0 iteration, .batch 1 iteration, .send 0, .deliver 0, .process 1 iteration]

def panicOf {α : Type} : Except Panic α → Option Panic
  | .ok _ => none
  | .error panic => some panic

theorem panics : panicOf (System.run settings leaving (System.initial partition stores)
    backAndForth) = some .accountNotFound := by
  decide +kernel

end QueuesSample

open AgreementSample SerialSample QueuesSample

theorem queues_consistent_sample :
    ∃ sys, System.run settings staying (System.initial partition stores)
        [.batch 0 QueuesSample.iteration] = .ok sys ∧
      ∀ e < 2, (sys.executors e).QueuesConsistent (sequenceOf staying) :=
  queues_consistent settings partition stores staying
    (startable (parses_of_pair rfl (by decide)) (by decide)) staying_stays
    [.batch 0 QueuesSample.iteration] (enough_pair (by simp))

/-- The executor that has to send an account that pays itself removes it twice. -/
theorem not_queues_consistent :
    ¬ ∀ (cfg : Settings) (partition : Partition) (stores : ℕ → AccountStore)
        (batches : List Batch), Startable cfg partition stores batches →
        ∀ events : List Event, (∀ event ∈ events, event.Enough batches) →
          ∃ sys, System.run cfg batches (System.initial partition stores) events = .ok sys ∧
            ∀ e < cfg.numExecutors,
              (sys.executors e).QueuesConsistent (sequenceOf batches) := by
  intro h
  obtain ⟨sys, hok, -⟩ := h settings partition stores leaving
    (startable (parses_of_pair rfl (by decide)) (by decide)) backAndForth
    (enough_pair (by simp [backAndForth, QueuesSample.iteration]))
  have hpanics := panics
  rw [hok] at hpanics
  cases hpanics

end DagBft.Fusion
