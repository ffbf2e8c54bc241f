/-
  All executors of the data-fusion design together: the `BatchExecutor`s, their
  `StateHelper`s and the network between these, in any interleaving.

  `execute_batch` looks at the transfers received only where it calls
  `process_incoming_transfers`, so the call at its end is a step of its own
  (`Event.process`): transfers may arrive while a batch is executed.

  `run_inv`: no run panics, and every state it reaches is related to a state of the
  handover (`Lib/Handover`).
-/
import DagBft.Fusion.Site
import Mathlib.Algebra.BigOperators.Group.Finset.Basic

namespace DagBft.Fusion

open Worker Handover

/-! ## The system -/

structure System where
  executors : ℕ → Executor
  /-- The batches that each executor has taken. -/
  taken : ℕ → ℕ
  /-- The messages between the `StateHelper`s. -/
  network : List StateTransferRequest

inductive Event
  /-- The executor takes its next batch: `execute_batch` up to the call of
      `process_incoming_transfers`. -/
  | batch (e : ℕ) (iter : Iteration)
  /-- `process_incoming_transfers`. -/
  | process (e : ℕ) (iter : Iteration)
  /-- `handle_send_state_request`: the `StateHelper` sends the next transfer. -/
  | send (e : ℕ)
  /-- `handle_executor_message`: message `i` of the network arrives. -/
  | deliver (i : ℕ)

namespace System

/-- Each executor with its accounts and nothing to do. -/
def initial (partition : Partition) (stores : ℕ → AccountStore) : System where
  executors e := ⟨e, stores e, partition, fun _ => none, ∅, ∅, [], [], []⟩
  taken _ := 0
  network := []

def setExecutor (sys : System) (e : ℕ) (s : Executor) : System :=
  { sys with executors := Function.update sys.executors e s }

/-- Executors from `num_executors` on do not exist: nothing happens to them. -/
def step (cfg : Settings) (batches : List Batch) (sys : System) : Event → Except Panic System
  | .batch e iter =>
      if e < cfg.numExecutors then
        match batches[sys.taken e]? with
        | none => .ok sys
        | some b => do
            let (localities, s) ← (sys.executors e).beginBatch cfg iter b.transactions
            let s ← Executor.handleAll cfg b.digest localities s
            .ok { sys.setExecutor e s with
              taken := Function.update sys.taken e (sys.taken e + 1) }
      else .ok sys
  | .process e iter =>
      if e < cfg.numExecutors then do
        let s ← (sys.executors e).processIncomingTransfers cfg iter
        .ok (sys.setExecutor e s)
      else .ok sys
  | .send e =>
      if e < cfg.numExecutors then
        match (sys.executors e).txSendState with
        | [] => .ok sys
        | request :: requests =>
            if request.destExecutorId < cfg.numExecutors then
              .ok { sys.setExecutor e { sys.executors e with txSendState := requests } with
                network := sys.network ++ [request] }
            else .error .noExecutor
      else .ok sys
  | .deliver i =>
      match sys.network[i]? with
      | none => .ok sys
      | some message =>
          let s := sys.executors message.destExecutorId
          .ok { sys.setExecutor message.destExecutorId { s with
              incomingTransfers := s.incomingTransfers.push message.stateTransfer } with
            network := sys.network.eraseIdx i }

def run (cfg : Settings) (batches : List Batch) (sys : System) (events : List Event) :
    Except Panic System := events.foldlM (step cfg batches) sys

theorem run_snoc {cfg : Settings} {batches : List Batch} {sys sys' : System}
    {events : List Event} (hrun : run cfg batches sys events = .ok sys') (event : Event) :
    run cfg batches sys (events ++ [event]) = step cfg batches sys' event := by
  unfold run at hrun ⊢
  rw [List.foldlM_append, hrun]
  show List.foldlM (step cfg batches) sys' [event] = _
  rw [List.foldlM_cons]
  cases step cfg batches sys' event <;> rfl

/-- All transfers on their way: queued for sending, in the network, or received and not yet
    consumed. -/
def transfers (n : ℕ) (sys : System) : Multiset StateTransferRequest :=
  ∑ e ∈ Finset.range n, (sys.executors e).transfers + (sys.network : Multiset _)

/-- The states of an account that are anywhere in the system. -/
def copies (n : ℕ) (sys : System) (a : ℕ) : Multiset AccountState :=
  (((List.range n).filterMap fun e => (sys.executors e).accountStore a : List _) : Multiset _) +
    ((sys.transfers n).filter fun r => r.stateTransfer.srcAccountId = a).map
      fun r => r.stateTransfer.srcAccountState

end System

/-! ## Executing one after the other -/

/-- All transactions in sequence order. -/
def sequenceOf (batches : List Batch) : List Bytes := batches.flatMap Batch.transactions

/-- The accounts of all executors at the start. -/
def unionStore (partition : Partition) (stores : ℕ → AccountStore) : AccountStore := fun a =>
  (partition a).bind fun e => stores e a

/-- The transactions executed one after the other, on one store. -/
def executeAll : List Bytes → AccountStore → Except Panic AccountStore
  | [], store => .ok store
  | txBytes :: transactions, store =>
      match parseSmallbankPayload txBytes with
      | none => .error .payload
      | some sbTx => do
          let (store, _) ← Executor.executeSmallBank store sbTx
          executeAll transactions store

/-- The id in the bytes of a transaction. -/
def txIdOf (txBytes : Bytes) : Option TxID :=
  (TransactionHeader.parse txBytes).map TransactionHeader.id

/-- What the executors start from: each has the accounts that the partition gives it, the
    transactions parse, are over these accounts and have different ids. -/
structure Admissible (cfg : Settings) (partition : Partition) (stores : ℕ → AccountStore)
    (batches : List Batch) : Prop where
  owned : partition.Owned cfg.numExecutors
  stores : ∀ e a, (stores e a).isSome ↔ partition a = some e
  wellFormed : ∀ b ∈ batches, ∀ tx ∈ b.transactions, WellFormed partition tx
  distinct : ((sequenceOf batches).map txIdOf).Nodup

/-- The same for transactions that need only parse: a payment may be of an account to itself. -/
structure Startable (cfg : Settings) (partition : Partition) (stores : ℕ → AccountStore)
    (batches : List Batch) : Prop where
  owned : partition.Owned cfg.numExecutors
  stores : ∀ e a, (stores e a).isSome ↔ partition a = some e
  parses : ∀ b ∈ batches, ∀ tx ∈ b.transactions, Parses partition tx
  distinct : ((sequenceOf batches).map txIdOf).Nodup

theorem Admissible.startable {cfg : Settings} {partition : Partition} {stores : ℕ → AccountStore}
    {batches : List Batch} (h : Admissible cfg partition stores batches) :
    Startable cfg partition stores batches :=
  ⟨h.owned, h.stores, fun b hb tx htx => (h.wellFormed b hb tx htx).parses, h.distinct⟩

/-- The loops of a call do not run out of fuel. -/
def Event.Enough (batches : List Batch) : Event → Prop
  | .process _ iter => 2 * (sequenceOf batches).length < iter.fuel
  | _ => True

/-! ## The course of the transactions -/

instance : Inhabited SmallBankTransaction := ⟨⟨.balance, 0, 0, Double.ofBits 0⟩⟩

def taskOf (digest : Bytes) (tx : Scheduled) : Task :=
  ⟨digest, tx, (parseSmallbankPayload tx.txBytes).getD default⟩

/-- The transactions of a schedule with their batches. -/
def tasksOf : List Batch → List (List Scheduled) → List Task
  | b :: batches, txs :: blocks => txs.map (taskOf b.digest) ++ tasksOf batches blocks
  | _, _ => []

section Course

variable {cfg : Settings} {partition : Partition} {stores : ℕ → AccountStore}
  {batches : List Batch} {blocks : List (List Scheduled)}

theorem Schedules.map_tx (h : Schedules cfg partition batches blocks) :
    (tasksOf batches blocks).map Task.tx = blocks.flatten := by
  induction h with
  | nil => rfl
  | @cons partition b batches txs blocks hbytes hbegin hrest ih =>
      rw [tasksOf, List.map_append, ih, List.flatten_cons, List.map_map]
      exact congrArg (· ++ blocks.flatten) (List.map_id txs)

theorem Schedules.map_txBytes (h : Schedules cfg partition batches blocks) :
    (tasksOf batches blocks).map (fun t => t.tx.txBytes) = sequenceOf batches := by
  induction h with
  | nil => rfl
  | @cons partition b batches txs blocks hbytes hbegin hrest ih =>
      rw [tasksOf, List.map_append, ih, List.map_map]
      unfold sequenceOf
      rw [List.flatMap_cons, ← hbytes]
      rfl

theorem Schedules.mem_tasks (h : Schedules cfg partition batches blocks) {n : ℕ}
    {initial : Partition} (hgood : ∀ txs ∈ blocks, ∀ tx ∈ txs, tx.Good initial n) :
    ∀ t ∈ tasksOf batches blocks, t.tx.Good initial n ∧
      parseSmallbankPayload t.tx.txBytes = some t.sbTx := by
  induction h with
  | nil => intro t ht; cases ht
  | @cons partition b batches txs blocks hbytes hbegin hrest ih =>
      rw [List.forall_mem_cons] at hgood
      intro t ht
      rcases List.mem_append.mp ht with ht | ht
      · obtain ⟨tx, htx, rfl⟩ := List.mem_map.mp ht
        have hg := hgood.1 tx htx
        obtain ⟨sbTx, hparse, -⟩ := hg.required
        refine ⟨hg, ?_⟩
        show parseSmallbankPayload tx.txBytes = some ((parseSmallbankPayload tx.txBytes).getD _)
        rw [hparse]
        rfl
      · exact ih hgood.2 t ht

/-- The part of the schedule that is batch `k`. -/
theorem Schedules.batch_at (h : Schedules cfg partition batches blocks) {k : ℕ} {b : Batch}
    (hk : batches[k]? = some b) :
    ∃ pre txs post, tasksOf batches blocks = pre ++ (txs.map (taskOf b.digest) ++ post) ∧
      pre.length = (sequenceOf (batches.take k)).length ∧
      txs.length = b.transactions.length ∧
      ∀ (iter : Iteration) (s : Executor),
        s.statesSchedulePartition = partition.movedBy (pre.map Task.tx) →
        s.beginBatch cfg iter b.transactions =
          .ok (localitiesOf s.executorId (partition.movedBy (pre.map Task.tx)) txs,
            { s with statesSchedulePartition :=
                (partition.movedBy (pre.map Task.tx)).movedBy txs }) := by
  induction h generalizing k with
  | nil => simp at hk
  | @cons partition b' batches txs blocks hbytes hbegin hrest ih =>
      cases k with
      | zero =>
          obtain rfl : b' = b := by simpa using hk
          refine ⟨[], txs, tasksOf batches blocks, rfl, rfl, ?_, hbegin⟩
          rw [← hbytes, List.length_map]
      | succ k =>
          obtain ⟨pre, txs', post, htasks, hlen, hlen', hbegin'⟩ := ih (by simpa using hk)
          have hpre : (txs.map (taskOf b'.digest) ++ pre).map Task.tx = txs ++ pre.map Task.tx := by
            rw [List.map_append, List.map_map]
            exact congrArg (· ++ pre.map Task.tx) (List.map_id txs)
          refine ⟨txs.map (taskOf b'.digest) ++ pre, txs', post, ?_, ?_, hlen', ?_⟩
          · rw [tasksOf, htasks, List.append_assoc]
          · rw [List.length_append, hlen, List.length_map, List.take_succ_cons]
            unfold sequenceOf
            rw [List.flatMap_cons, List.length_append, ← hbytes, List.length_map]
          · rw [hpre, Partition.movedBy_append]
            exact hbegin'

/-- The course that the executors follow. -/
def course (hstart : Startable cfg partition stores batches)
    (h : Schedules cfg partition batches blocks)
    (hgood : ∀ txs ∈ blocks, ∀ tx ∈ txs, tx.Good partition cfg.numExecutors)
    (hsettled : SettledFrom partition blocks.flatten) : Course cfg where
  initial := partition
  store := unionStore partition stores
  tasks := tasksOf batches blocks
  owned := hstart.owned
  isSome_store a := by
    unfold unionStore
    cases hp : partition a with
    | none => rfl
    | some e => simp [(hstart.stores e a).mpr hp]
  good t ht := (h.mem_tasks hgood t ht).1
  payload t ht := (h.mem_tasks hgood t ht).2
  distinct := by
    have hids : ((tasksOf batches blocks).map fun t => t.tx.header.id).map some =
        (sequenceOf batches).map txIdOf := by
      rw [← h.map_txBytes, List.map_map, List.map_map]
      refine List.map_congr_left fun t ht => ?_
      show some _ = txIdOf t.tx.txBytes
      unfold txIdOf
      rw [(h.mem_tasks hgood t ht).1.header]
      rfl
    refine List.Nodup.of_map some ?_
    rw [hids]
    exact hstart.distinct
  settled := by
    rw [h.map_tx]
    exact hsettled

end Course

namespace Course

variable {cfg : Settings} {σ : Course cfg}

theorem task_at {pre post : List Task} {txs : List Scheduled} {digest : Bytes}
    (h : σ.tasks = pre ++ (txs.map (taskOf digest) ++ post)) {m : ℕ} (hm : m < txs.length) :
    σ.task (pre.length + m) = taskOf digest txs[m] := by
  unfold task
  rw [h, List.getD_append_right _ _ _ _ (by omega), Nat.add_sub_cancel_left,
    List.getD_append _ _ _ _ (by simpa using hm), List.getD_eq_getElem _ _ (by simpa using hm),
    List.getElem_map]

theorem before_at {pre post : List Task} {txs : List Scheduled} {digest : Bytes}
    (h : σ.tasks = pre ++ (txs.map (taskOf digest) ++ post)) {m : ℕ} (hm : m ≤ txs.length) :
    σ.before (pre.length + m) = (σ.before pre.length).movedBy (txs.take m) := by
  unfold before
  rw [← Partition.movedBy_append, ← List.map_id (txs.take m)]
  congr 1
  rw [h, List.take_length_add_append, List.take_append_of_le_length (by simpa using hm),
    List.map_append, List.take_append_of_le_length le_rfl, List.take_length, ← List.map_take,
    List.map_map]
  rfl

theorem localities_eq {pre post : List Task} {txs : List Scheduled} {digest : Bytes}
    (h : σ.tasks = pre ++ (txs.map (taskOf digest) ++ post)) (e : ℕ) :
    localitiesOf e (σ.before pre.length) txs =
      (List.range' pre.length txs.length).map fun j => ((σ.task j).tx, σ.locality e j) := by
  refine List.ext_getElem? fun m => ?_
  rw [localitiesOf_getElem?, List.getElem?_map]
  by_cases hm : m < txs.length
  · have htask := task_at h hm
    have hbefore := before_at h hm.le
    rw [List.getElem?_eq_getElem hm, List.getElem?_range' hm]
    simp only [Option.map_some, Nat.one_mul]
    unfold locality accounts
    rw [htask, hbefore]
    rfl
  · rw [List.getElem?_eq_none (by omega), List.getElem?_eq_none (by simpa using hm)]
    rfl

theorem executeAll_eq {tasks : List Task} {store : AccountStore}
    (hpayload : ∀ t ∈ tasks, parseSmallbankPayload t.tx.txBytes = some t.sbTx)
    (hsome : ∀ t ∈ tasks, ∀ a ∈ t.sbTx.requiredAccounts, (store a).isSome) :
    executeAll (tasks.map fun t => t.tx.txBytes) store =
      .ok (tasks.foldl (fun s t => effect t.sbTx s) store) := by
  induction tasks generalizing store with
  | nil => rfl
  | cons t tasks ih =>
      rw [List.forall_mem_cons] at hpayload hsome
      obtain ⟨success, hok⟩ := executeSmallBank_eq hsome.1 fun _ _ => rfl
      have heffect : (fun a => if a ∈ t.sbTx.requiredAccounts then effect t.sbTx store a
          else store a) = effect t.sbTx store := by
        funext a
        split
        · rfl
        · rename_i ha
          exact (effect_of_notMem hsome.1 ha).symm
      rw [heffect] at hok
      rw [List.map_cons]
      unfold executeAll
      rw [hpayload.1]
      simp only [hok, bind, Except.bind, List.foldl_cons]
      exact ih hpayload.2 fun t' ht' a ha => by
        rw [isSome_effect]
        exact hsome.2 t' ht' a ha

/-- The first `k` transactions, one after the other. -/
theorem executeAll_take (k : ℕ) :
    executeAll ((σ.tasks.map fun t => t.tx.txBytes).take k) σ.store = .ok (σ.value k) := by
  rw [← List.map_take]
  refine executeAll_eq (fun t ht => σ.payload t (List.mem_of_mem_take ht)) fun t ht a ha => ?_
  have ht := List.mem_of_mem_take ht
  have hgood := σ.good t ht
  obtain ⟨sbTx, hparse, hreq⟩ := hgood.required
  rw [σ.payload t ht] at hparse
  rw [Option.some.inj hparse, ← hreq] at ha
  exact (σ.isSome_store a).mpr (hgood.known a ha)

/-! ## The invariant of all executors -/

/-- The number of transactions in the first `k` batches. -/
def offset (batches : List Batch) (k : ℕ) : ℕ := (sequenceOf (batches.take k)).length

/-- All executors as the sites of a handover. -/
structure Inv (σ : Course cfg) (batches : List Batch) (sys : System) (h : State ℕ ℕ) : Prop where
  inv : State.Inv σ.plan h
  site : ∀ e < cfg.numExecutors, σ.Site h e (sys.executors e)
  traffic : σ.Traffic h (sys.transfers cfg.numExecutors)
  taken : ∀ e < cfg.numExecutors, h.taken e = offset batches (sys.taken e)
  partition : ∀ e < cfg.numExecutors,
    (sys.executors e).statesSchedulePartition = σ.before (h.taken e)
  idle : ∀ e < cfg.numExecutors, h.Idle σ.plan e
  /-- There are no other executors. -/
  others : ∀ e, cfg.numExecutors ≤ e → h.taken e = 0 ∧ h.held e = []

/-- Another executor does not see the steps of this one. -/
theorem Site.same {h h' : State ℕ ℕ} {e : ℕ} {s : Executor} (hs : σ.Site h e s)
    (hsame : State.Same e h h') : σ.Site h' e s where
  executorId := hs.executorId
  store := by
    rw [hs.store]
    funext a
    unfold stored
    by_cases hl : h.loc a = .store e
    · rw [if_pos hl, if_pos ((hsame.store a).mpr hl), hsame.front a hl]
    · rw [if_neg hl, if_neg fun hl' => hl ((hsame.store a).mp hl')]
  nodup := hs.nodup
  mem_executed id := by
    rw [hs.mem_executed]
    unfold State.Done
    rw [hsame.taken, hsame.held]
  incoming := hs.incoming
  drained := hs.drained
  queues := by rw [hs.queues, hsame.held]

/-- The transfers that are not with this executor. -/
def elsewhere (sys : System) (n e : ℕ) : Multiset StateTransferRequest :=
  ∑ e' ∈ (Finset.range n).erase e, (sys.executors e').transfers + (sys.network : Multiset _)

theorem transfers_eq (sys : System) {n e : ℕ} (he : e < n) :
    sys.transfers n = (sys.executors e).transfers + elsewhere sys n e := by
  unfold System.transfers elsewhere
  rw [← add_assoc]
  exact congrArg (· + (sys.network : Multiset StateTransferRequest))
    (Finset.add_sum_erase _ (fun e => (sys.executors e).transfers)
      (Finset.mem_range.mpr he)).symm

theorem elsewhere_setExecutor (sys : System) (n e : ℕ) (s : Executor) :
    elsewhere (sys.setExecutor e s) n e = elsewhere sys n e := by
  unfold elsewhere
  refine congrArg (· + (sys.network : Multiset StateTransferRequest))
    (Finset.sum_congr rfl fun e' he' => ?_)
  exact congrArg Executor.transfers (Function.update_of_ne (Finset.ne_of_mem_erase he') _ _)

theorem Inv.running {batches : List Batch} {sys : System} {h : State ℕ ℕ} {e : ℕ}
    (hi : σ.Inv batches sys h) (he : e < cfg.numExecutors) :
    σ.Running h e (elsewhere sys cfg.numExecutors e) (sys.executors e) := by
  refine ⟨hi.inv, hi.site e he, ?_⟩
  rw [← transfers_eq sys he]
  exact hi.traffic

/-- An executor makes steps of its site. -/
theorem Inv.set {batches : List Batch} {sys : System} {h h' : State ℕ ℕ} {e k : ℕ} {s' : Executor}
    (hi : σ.Inv batches sys h) (he : e < cfg.numExecutors) (hsteps : State.Steps σ.plan e h h')
    (hr : σ.Running h' e (elsewhere sys cfg.numExecutors e) s') (hidle : h'.Idle σ.plan e)
    (htaken : h'.taken e = offset batches k)
    (hpart : s'.statesSchedulePartition = σ.before (h'.taken e)) :
    σ.Inv batches { sys.setExecutor e s' with taken := Function.update sys.taken e k } h' := by
  have hexec : ∀ e', e' ≠ e → (sys.setExecutor e s').executors e' = sys.executors e' :=
    fun e' hne => Function.update_of_ne hne _ _
  have hself : (sys.setExecutor e s').executors e = s' := Function.update_self _ _ _
  have hsame : ∀ e', e' ≠ e → State.Same e' h h' := fun e' hne => hsteps.same hne
  refine ⟨hr.inv, fun e' he' => ?_, ?_, fun e' he' => ?_, fun e' he' => ?_, fun e' he' => ?_,
    fun e' he' => ?_⟩
  · by_cases hne : e' = e
    · rw [hne]
      exact hself.symm ▸ hr.site
    · exact (hexec e' hne).symm ▸ (hi.site e' he').same (hsame e' hne)
  · show σ.Traffic h' ((sys.setExecutor e s').transfers cfg.numExecutors)
    rw [transfers_eq _ he, elsewhere_setExecutor, hself]
    exact hr.traffic
  · by_cases hne : e' = e
    · rw [hne, htaken]
      simp
    · rw [(hsame e' hne).taken, hi.taken e' he']
      simp [hne]
  · by_cases hne : e' = e
    · rw [hne]
      exact hself.symm ▸ hpart
    · rw [(hsame e' hne).taken, ← hi.partition e' he']
      exact congrArg _ (hexec e' hne)
  · by_cases hne : e' = e
    · rw [hne]
      exact hidle
    · exact (hsame e' hne).idle (hi.idle e' he')
  · rw [(hsame e' (by omega)).taken, (hsame e' (by omega)).held]
    exact hi.others e' he'

/-- Transfers move between an executor and the network. -/
theorem Inv.move {batches : List Batch} {sys : System} {h : State ℕ ℕ} {e : ℕ} (s' : Executor)
    (network : List StateTransferRequest) (hi : σ.Inv batches sys h) (he : e < cfg.numExecutors)
    (hsite : σ.Site h e s')
    (hpart : s'.statesSchedulePartition = (sys.executors e).statesSchedulePartition)
    (hmove : s'.transfers + (network : Multiset StateTransferRequest) =
      (sys.executors e).transfers + (sys.network : Multiset StateTransferRequest)) :
    σ.Inv batches { sys.setExecutor e s' with network := network } h := by
  have hexec : ∀ e', e' ≠ e → (sys.setExecutor e s').executors e' = sys.executors e' :=
    fun e' hne => Function.update_of_ne hne _ _
  have hself : (sys.setExecutor e s').executors e = s' := Function.update_self _ _ _
  refine ⟨hi.inv, fun e' he' => ?_, ?_, hi.taken, fun e' he' => ?_, hi.idle, hi.others⟩
  · by_cases hne : e' = e
    · rw [hne]
      exact hself.symm ▸ hsite
    · exact (hexec e' hne).symm ▸ hi.site e' he'
  · have hsum : ∀ (t : System) (x : Multiset StateTransferRequest),
        t.transfers cfg.numExecutors + x = (t.executors e).transfers +
          (t.network : Multiset StateTransferRequest) +
          (∑ e' ∈ (Finset.range cfg.numExecutors).erase e, (t.executors e').transfers + x) := by
      intro t x
      rw [transfers_eq t he, elsewhere]
      abel
    have hrest : ∑ e' ∈ (Finset.range cfg.numExecutors).erase e,
        ((sys.setExecutor e s').executors e').transfers =
        ∑ e' ∈ (Finset.range cfg.numExecutors).erase e, (sys.executors e').transfers :=
      Finset.sum_congr rfl fun e' he' => by rw [hexec e' (Finset.ne_of_mem_erase he')]
    have hall : System.transfers cfg.numExecutors
        { sys.setExecutor e s' with network := network } = sys.transfers cfg.numExecutors := by
      have hnew := hsum { sys.setExecutor e s' with network := network } 0
      have hold := hsum sys 0
      rw [add_zero, add_zero] at hnew hold
      rw [hnew, hold]
      show ((sys.setExecutor e s').executors e).transfers + (network : Multiset _) + _ = _
      rw [hself, hmove]
      exact congrArg _ hrest
    rw [hall]
    exact hi.traffic
  · by_cases hne : e' = e
    · rw [hne]
      show ((sys.setExecutor e s').executors e).statesSchedulePartition = _
      rw [hself, hpart]
      exact hi.partition e he
    · rw [← hi.partition e' he']
      exact congrArg _ (hexec e' hne)

/-- The executor that a transfer goes to exists. -/
theorem Inv.dest_lt {batches : List Batch} {sys : System} {h : State ℕ ℕ}
    (hi : σ.Inv batches sys h) {r : StateTransferRequest}
    (hr : r ∈ sys.transfers cfg.numExecutors) : r.destExecutorId < cfg.numExecutors := by
  have hway : r ∈ σ.onTheWay h r.stateTransfer.srcAccountId := by
    rw [← hi.traffic]
    exact Multiset.mem_filter.mpr ⟨hr, rfl⟩
  obtain ⟨j, v, hl, -, heq⟩ := mem_onTheWay.mp hway
  have hcell := (hi.inv.moving _ j hl).1
  rw [heq]
  exact (σ.good _ (task_mem (lt_of_mem hcell))).target_lt

theorem mem_transfers {sys : System} {n e : ℕ} {r : StateTransferRequest} (he : e < n)
    (hr : r ∈ (sys.executors e).transfers) : r ∈ sys.transfers n := by
  rw [transfers_eq sys he]
  exact Multiset.mem_add.mpr (Or.inl hr)

section Step

variable {batches : List Batch} {blocks : List (List Scheduled)} {sys : System} {h : State ℕ ℕ}
  {e : ℕ} {iter : Iteration}

theorem offset_succ {k : ℕ} {b : Batch} (hk : batches[k]? = some b) :
    offset batches (k + 1) = offset batches k + b.transactions.length := by
  unfold offset sequenceOf
  rw [List.take_add_one, hk, List.flatMap_append, List.length_append]
  simp

theorem length_tasks (hs : Schedules cfg σ.initial batches blocks)
    (htasks : σ.tasks = tasksOf batches blocks) :
    σ.tasks.length = (sequenceOf batches).length := by
  rw [htasks, ← hs.map_txBytes, List.length_map]

/-- Loops 1 and 2 of `execute_batch`. -/
theorem Inv.batch (iter : Iteration) (hi : σ.Inv batches sys h)
    (hs : Schedules cfg σ.initial batches blocks)
    (htasks : σ.tasks = tasksOf batches blocks) (he : e < cfg.numExecutors) {b : Batch}
    (hk : batches[sys.taken e]? = some b) :
    ∃ localities s₁ s₂ h', (sys.executors e).beginBatch cfg iter b.transactions =
        .ok (localities, s₁) ∧ Executor.handleAll cfg b.digest localities s₁ = .ok s₂ ∧
      σ.Inv batches { sys.setExecutor e s₂ with
        taken := Function.update sys.taken e (sys.taken e + 1) } h' := by
  obtain ⟨pre, txs, post, hsplit, hpre, hlen, hbegin⟩ := hs.batch_at hk
  rw [← htasks] at hsplit
  have htaken : h.taken e = pre.length := (hi.taken e he).trans hpre.symm
  have hbefore : σ.before pre.length = σ.initial.movedBy (pre.map Task.tx) := by
    unfold before
    rw [hsplit, List.take_append_of_le_length le_rfl, List.take_length]
  have hpart := hi.partition e he
  rw [htaken, hbefore] at hpart
  have hr := hi.running he
  have hr₁ : σ.Running h e (elsewhere sys cfg.numExecutors e) { sys.executors e with
      statesSchedulePartition := (σ.initial.movedBy (pre.map Task.tx)).movedBy txs } :=
    ⟨hr.inv, ⟨⟨hr.site.executorId, hr.site.store, hr.site.nodup, hr.site.mem_executed,
      hr.site.incoming, hr.site.drained⟩, hr.site.queues⟩, hr.traffic⟩
  have hlocalities := localities_eq hsplit e
  have hN : pre.length + txs.length ≤ σ.tasks.length := by
    rw [hsplit, List.length_append, List.length_append, List.length_map]
    omega
  obtain ⟨s₂, h', hok, hsteps, htaken', hr₂, hidle⟩ := handleAll_spec (σ := σ)
    b.digest txs.length hr₁ (hi.idle e he) (by omega) fun j hle hlt => by
      obtain ⟨m, rfl⟩ := Nat.exists_eq_add_of_le hle
      rw [htaken] at hlt ⊢
      rw [task_at hsplit (by omega)]
      rfl
  rw [htaken, ← hlocalities, hbefore] at hok
  have hkeeps := Executor.keeps_handleAll hok
  refine ⟨_, _, s₂, h', ?_, hok, hi.set he hsteps hr₂ hidle ?_ ?_⟩
  · exact (hbegin iter _ hpart).trans
      (congrArg (fun i => Except.ok (localitiesOf i _ txs, _)) hr.site.executorId)
  · rw [htaken', offset_succ hk, ← hi.taken e he, hlen]
  · rw [hkeeps.partition, htaken', htaken, before_at hsplit le_rfl, hbefore, List.take_length]

/-- No event makes an executor panic, and the invariant is preserved. -/
theorem Inv.step (hi : σ.Inv batches sys h) (hs : Schedules cfg σ.initial batches blocks)
    (htasks : σ.tasks = tasksOf batches blocks) {event : Event} (hev : event.Enough batches) :
    ∃ sys' h', System.step cfg batches sys event = .ok sys' ∧ σ.Inv batches sys' h' := by
  cases event with
  | batch e iter =>
      by_cases he : e < cfg.numExecutors
      · cases hk : batches[sys.taken e]? with
        | none => exact ⟨sys, h, by simp [System.step, he, hk], hi⟩
        | some b =>
            obtain ⟨localities, s₁, s₂, h', hbegin, hok, hi'⟩ :=
              hi.batch iter hs htasks he hk
            refine ⟨_, h', ?_, hi'⟩
            simp only [System.step, if_pos he, hk, hbegin, hok, bind, Except.bind]
      · exact ⟨sys, h, by simp [System.step, he], hi⟩
  | process e iter =>
      by_cases he : e < cfg.numExecutors
      · have hfuel : 2 * σ.tasks.length < iter.fuel := by
          rw [length_tasks hs htasks]
          exact hev
        obtain ⟨s', h', hok, hsteps, htaken, hr, hidle, -⟩ :=
          processIncomingTransfers_spec hfuel (hi.running he) (hi.idle e he)
        have hkeeps := Executor.keeps_processIncomingTransfers hok
        have hi' := hi.set (k := sys.taken e) he hsteps hr hidle
          (by rw [htaken]; exact hi.taken e he)
          (by rw [hkeeps.partition, htaken]; exact hi.partition e he)
        rw [Function.update_eq_self] at hi'
        refine ⟨sys.setExecutor e s', h', ?_, hi'⟩
        simp only [System.step, if_pos he, hok, bind, Except.bind]
      · exact ⟨sys, h, by simp [System.step, he], hi⟩
  | send e =>
      by_cases he : e < cfg.numExecutors
      · cases hq : (sys.executors e).txSendState with
        | nil => exact ⟨sys, h, by simp [System.step, he, hq], hi⟩
        | cons request requests =>
            have hmem : request ∈ (sys.executors e).transfers := by
              unfold Executor.transfers
              rw [hq]
              simp
            have hdest := hi.dest_lt (mem_transfers he hmem)
            have hsite := hi.site e he
            refine ⟨_, h, ?_,
              hi.move { sys.executors e with txSendState := requests }
                (sys.network ++ [request]) he ?_ rfl ?_⟩
            · simp only [System.step, if_pos he, hq, if_pos hdest]
            · exact ⟨⟨hsite.executorId, hsite.store, hsite.nodup, hsite.mem_executed,
                hsite.incoming, hsite.drained⟩, hsite.queues⟩
            · rw [transfers_send hq, ← Multiset.coe_add, Multiset.coe_singleton]
              abel
      · exact ⟨sys, h, by simp [System.step, he], hi⟩
  | deliver i =>
      cases hm : sys.network[i]? with
      | none => exact ⟨sys, h, by simp [System.step, hm], hi⟩
      | some message =>
          have hmem : message ∈ sys.transfers cfg.numExecutors :=
            Multiset.mem_add.mpr (Or.inr (Multiset.mem_coe.mpr (List.mem_of_getElem? hm)))
          have hdest := hi.dest_lt hmem
          have hsite := hi.site _ hdest
          obtain ⟨hlt, rfl⟩ := List.getElem?_eq_some_iff.mp hm
          refine ⟨_, h, by rw [System.step, hm], hi.move
            { sys.executors sys.network[i].destExecutorId with
              incomingTransfers :=
                (sys.executors sys.network[i].destExecutorId).incomingTransfers.push
                  sys.network[i].stateTransfer }
            (sys.network.eraseIdx i) hdest ?_ rfl ?_⟩
          · exact ⟨⟨hsite.executorId, hsite.store, hsite.nodup, hsite.mem_executed,
              hsite.incoming.push _, hsite.drained⟩, hsite.queues⟩
          · rw [transfers_push, hsite.executorId, add_assoc]
            refine congrArg _ ?_
            rw [Multiset.singleton_add, Multiset.cons_coe, Multiset.coe_eq_coe]
            exact List.getElem_cons_eraseIdx_perm hlt

end Step

section Initial

variable {partition : Partition} {stores : ℕ → AccountStore} {batches : List Batch}
  {blocks : List (List Scheduled)}

theorem inv_initial (hstart : Startable cfg partition stores batches)
    (hs : Schedules cfg partition batches blocks)
    (hgood : ∀ txs ∈ blocks, ∀ tx ∈ txs, tx.Good partition cfg.numExecutors)
    (hsettled : SettledFrom partition blocks.flatten) :
    (course hstart hs hgood hsettled).Inv batches (System.initial partition stores)
      (State.initial (course hstart hs hgood hsettled).plan) where
  inv := State.Inv.initial _
  site e _ := by
    refine ⟨⟨rfl, ?_, List.nodup_nil, fun id => ?_, TransferMap.tidy_empty,
      TransferMap.tidy_empty⟩, ?_⟩
    · funext a
      show stores e a = _
      have hstore := hstart.stores e a
      show _ = if Loc.store (partition.ownerD a) = .store e then unionStore partition stores a
        else none
      unfold unionStore Partition.ownerD
      cases hp : partition a with
      | none =>
          rw [hp] at hstore
          have : stores e a = none := by simpa using hstore
          simp [this]
      | some o =>
          rw [hp] at hstore
          by_cases ho : o = e
          · simp [ho]
          · have : stores e a = none := by simpa [ho] using hstore
            simp [this, ho]
    · simp [System.initial, State.Done, State.initial]
    · funext a
      simp [System.initial, queues, queue, State.initial]
  traffic a := by
    have hzero : System.transfers cfg.numExecutors (System.initial partition stores) = 0 := by
      unfold System.transfers
      have : ∀ e ∈ Finset.range cfg.numExecutors,
          ((System.initial partition stores).executors e).transfers = 0 := fun e _ => rfl
      rw [Finset.sum_eq_zero this]
      rfl
    rw [hzero]
    exact (onTheWay_of_store rfl).symm
  taken _ _ := by simp [State.initial, System.initial, offset, sequenceOf]
  partition _ _ := rfl
  idle _ _ j hr := absurd hr.1 List.not_mem_nil
  others _ _ := ⟨rfl, rfl⟩

/-- No run panics, and the executors are the sites of a handover in every state it reaches. -/
theorem run_inv {σ : Course cfg} {sys : System} {h : State ℕ ℕ} (hi : σ.Inv batches sys h)
    (hs : Schedules cfg σ.initial batches blocks) (htasks : σ.tasks = tasksOf batches blocks)
    {events : List Event} (henough : ∀ event ∈ events, event.Enough batches) :
    ∃ sys' h', System.run cfg batches sys events = .ok sys' ∧ σ.Inv batches sys' h' := by
  induction events generalizing sys h with
  | nil => exact ⟨sys, h, rfl, hi⟩
  | cons event events ih =>
      rw [List.forall_mem_cons] at henough
      obtain ⟨sys₁, h₁, hok, hi₁⟩ := hi.step hs htasks henough.1
      obtain ⟨sys', h', hok', hi'⟩ := ih hi₁ henough.2
      refine ⟨sys', h', ?_, hi'⟩
      unfold System.run at hok' ⊢
      rw [List.foldlM_cons, hok]
      exact hok'

end Initial

end Course

section Reach

variable (cfg : Settings) (partition : Partition) (stores : ℕ → AccountStore)
  (batches : List Batch)

/-- Every run reaches a state that follows the course, if who pays itself does so where the
    account is. -/
theorem reach_settled {blocks : List (List Scheduled)}
    (hstart : Startable cfg partition stores batches) (hs : Schedules cfg partition batches blocks)
    (hgood : ∀ txs ∈ blocks, ∀ tx ∈ txs, tx.Good partition cfg.numExecutors)
    (hsettled : SettledFrom partition blocks.flatten) (events : List Event)
    (henough : ∀ event ∈ events, event.Enough batches) :
    ∃ (σ : Course cfg) (sys : System) (h : State ℕ ℕ),
      System.run cfg batches (System.initial partition stores) events = .ok sys ∧
      σ.Inv batches sys h ∧ σ.initial = partition ∧ σ.store = unionStore partition stores ∧
      σ.tasks = tasksOf batches blocks := by
  obtain ⟨sys, h, hok, hi⟩ :=
    Course.run_inv (Course.inv_initial hstart hs hgood hsettled) hs rfl henough
  exact ⟨course hstart hs hgood hsettled, sys, h, hok, hi, rfl, rfl, rfl⟩

/-- Every run from admissible executors reaches a state that follows the course. -/
theorem reach (hadm : Admissible cfg partition stores batches) (events : List Event)
    (henough : ∀ event ∈ events, event.Enough batches) :
    ∃ (σ : Course cfg) (sys : System) (h : State ℕ ℕ),
      System.run cfg batches (System.initial partition stores) events = .ok sys ∧
      σ.Inv batches sys h ∧ σ.initial = partition ∧ σ.store = unionStore partition stores ∧
      σ.tasks.map (fun t => t.tx.txBytes) = sequenceOf batches := by
  have hstart := hadm.startable
  obtain ⟨blocks, hs, hgood⟩ := exists_schedules hadm.owned (fun _ => Iff.rfl) hstart.parses
  have hsettled : SettledFrom partition blocks.flatten := by
    refine settledFrom_of_nodup fun tx htx => ?_
    obtain ⟨txs, htxs, hmem⟩ := List.mem_flatten.mp htx
    obtain ⟨b, hb, hbytes⟩ : ∃ b ∈ batches, b.transactions = txs.map Scheduled.txBytes := by
      have : txs.map Scheduled.txBytes ∈ batches.map Batch.transactions :=
        hs.bytes ▸ List.mem_map_of_mem htxs
      exact List.mem_map.mp this
    exact (hadm.wellFormed b hb tx.txBytes (hbytes ▸ List.mem_map_of_mem hmem)).nodup
      (hgood txs htxs tx hmem)
  obtain ⟨σ, sys, h, hok, hi, hinitial, hstore, htasks⟩ :=
    reach_settled cfg partition stores batches hstart hs hgood hsettled events henough
  exact ⟨σ, sys, h, hok, hi, hinitial, hstore, by rw [htasks, hs.map_txBytes]⟩

end Reach

end DagBft.Fusion
