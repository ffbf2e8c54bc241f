/-
  What the executors of the writeback design do together is what one executor would do
  (`Writeback/System`).

  A payment between two executors compares the amount with the balance, a payment at one
  executor looks at the sign of the difference (`Writeback/Payments`). `DebitsFit` is that
  these differences do not overflow when the transactions are executed one after the other.
-/
import DagBft.Writeback.System

namespace DagBft.Writeback

open Worker Fusion Loan

/-- The transactions executed one after the other, on one store. -/
def executeSerially : List Bytes → AccountStore → Except Panic AccountStore
  | [], store => .ok store
  | txBytes :: transactions, store =>
      match parseSmallbankPayload txBytes with
      | none => .error .payload
      | some sbTx => do
          let (store, _, _) ← Executor.executeSmallBank store sbTx
          executeSerially transactions store

/-- No payment overflows when its turn comes. -/
def DebitsFit (transactions : List Bytes) (store : AccountStore) : Prop :=
  ∀ i txBytes sbTx, transactions[i]? = some txBytes → parseSmallbankPayload txBytes = some sbTx →
    sbTx.txType = .sendPayment → ∀ before src,
      executeSerially (transactions.take i) store = .ok before →
        before sbTx.accountId = some src →
          FitsI64 (src.checkingBalance.toInt - sbTx.amount.toInt64.toInt)

namespace System

/-- An executor has executed the transaction. -/
def HasExecuted (n : ℕ) (sys : System) (txBytes : Bytes) : Prop :=
  ∃ e < n, ∃ id ∈ (sys.executors e).executed, txIdOf txBytes = some id

/-- All executors have processed `k` batches. -/
def Processed (n : ℕ) (sys : System) (k : ℕ) : Prop := ∀ e < n, sys.taken e = k

/-- No transaction is pending. -/
def NothingPending (n : ℕ) (sys : System) : Prop :=
  ∀ e < n, ∀ a, ((sys.executors e).pendingQueues a).getD [] = []

/-- The accounts of all executors. -/
def union (partition : Partition) (sys : System) : AccountStore :=
  unionStore partition fun e => (sys.executors e).accountStore

end System

theorem executeSerially_append (l l' : List Bytes) (store : AccountStore) :
    executeSerially (l ++ l') store = (executeSerially l store).bind (executeSerially l') := by
  induction l generalizing store with
  | nil => rfl
  | cons txBytes l ih =>
      simp only [List.cons_append, executeSerially]
      split
      · rfl
      · rename_i sbTx _
        cases Executor.executeSmallBank store sbTx with
        | error p => rfl
        | ok r => exact ih r.1

namespace Course

variable {cfg : Settings} {partition : Partition} {batches : List Batch} {σ : Course partition}
  {sys : System} {h : State ℕ ℕ} {e i j k n : ℕ}

/-- A payment between two executors whose difference does not overflow. -/
theorem executeSmallBank_split (hs : σ.Split j)
    (hfits : FitsI64 ((σ.state j (σ.src j)).checkingBalance.toInt -
      (σ.task j).sbTx.amount.toInt64.toInt)) :
    ∃ success state, Executor.executeSmallBank (σ.value j) (σ.task j).sbTx =
      .ok (σ.value (j + 1), success, state) := by
  have hsrc : σ.value j (σ.task j).sbTx.accountId = _ := value_eq_state j (src_mem hs.1)
  have hdest : σ.value j (σ.task j).sbTx.destAccountId = _ := value_eq_state j (dest_mem hs.1)
  have hne : (σ.task j).sbTx.accountId ≠ (σ.task j).sbTx.destAccountId := src_ne_dest hs
  have htype := (σ.payment _ (task_mem hs.1)).mpr hne.symm
  have hpay : σ.paid j = pay (σ.state j (σ.src j)) (σ.state j (σ.dest j)) (σ.task j).sbTx.amount :=
    (remotePay_eq_iff _ _ _).mpr hfits
  rw [value_succ_split hs, hpay]
  exact ⟨_, _, executeSmallBank_pay ⟨htype, hne⟩ hsrc hdest⟩

/-- A transaction at one executor. -/
theorem executeSmallBank_local (hj : j < σ.tasks.length) (hs : ¬ σ.Split j) :
    ∃ success state, Executor.executeSmallBank (σ.value j) (σ.task j).sbTx =
      .ok (σ.value (j + 1), success, state) := by
  have hreq : (σ.task j).sbTx.requiredAccounts = σ.accounts j := (accounts_of_lt hj).symm
  have hsome : ∀ a ∈ (σ.task j).sbTx.requiredAccounts, (σ.value j a).isSome := fun a ha =>
    isSome_value_of_mem j (hreq ▸ ha)
  obtain ⟨success, hfusion⟩ := executeSmallBank_eq hsome fun _ _ => rfl
  obtain ⟨state, hok⟩ := executeSmallBank_of_fusion hfusion
  refine ⟨success, state, hok.trans ?_⟩
  refine congrArg (fun store => Except.ok (store, success, state)) (funext fun a => ?_)
  rw [value_succ_local hs hj]
  split
  · rfl
  · rename_i ha
    exact (effect_of_notMem (fun b hb => isSome_value_of_mem j (hreq ▸ hb)) ha).symm

/-- The first `j` transactions, one after the other. -/
theorem executeSerially_take (hfit : DebitsFit (σ.tasks.map Task.txBytes) σ.store)
    (hj : j ≤ σ.tasks.length) :
    executeSerially ((σ.tasks.map Task.txBytes).take j) σ.store = .ok (σ.value j) := by
  induction j with
  | zero => rfl
  | succ j ih =>
      have hlt : j < σ.tasks.length := by omega
      have ih := ih (by omega)
      have htx : (σ.tasks.map Task.txBytes)[j]? = some (σ.task j).txBytes := by
        rw [List.getElem?_map, List.getElem?_eq_getElem hlt]
        unfold task
        rw [List.getD_eq_getElem _ _ hlt]
        rfl
      have hpayload := σ.payload _ (task_mem hlt)
      obtain ⟨success, state, hok⟩ : ∃ success state,
          Executor.executeSmallBank (σ.value j) (σ.task j).sbTx =
            .ok (σ.value (j + 1), success, state) := by
        by_cases hs : σ.Split j
        · have hne : (σ.task j).sbTx.destAccountId ≠ (σ.task j).sbTx.accountId :=
            (src_ne_dest hs).symm
          refine executeSmallBank_split hs (hfit j _ _ htx hpayload
            ((σ.payment _ (task_mem hlt)).mpr hne) _ _ ih ?_)
          exact value_eq_state j (src_mem hlt)
        · exact executeSmallBank_local hlt hs
      rw [List.take_add_one, htx, executeSerially_append, ih]
      simp only [Except.bind, Option.toList_some, executeSerially, hpayload, hok, bind]

theorem txIdOf_task (hj : j < σ.tasks.length) : txIdOf (σ.task j).txBytes = some (σ.id j) := by
  unfold txIdOf
  rw [σ.header _ (task_mem hj)]
  rfl

theorem sequenceOf_split (batches : List Batch) (k : ℕ) :
    sequenceOf batches = sequenceOf (batches.take k) ++ sequenceOf (batches.drop k) := by
  unfold sequenceOf
  rw [← List.flatMap_append, List.take_append_drop]

theorem offset_le (batches : List Batch) (k : ℕ) :
    offset batches k ≤ (sequenceOf batches).length := by
  rw [sequenceOf_split batches k, List.length_append]
  exact Nat.le_add_right _ _

/-- The transactions of the first batches are the first transactions. -/
theorem sequenceOf_take (batches : List Batch) (k : ℕ) :
    sequenceOf (batches.take k) = (sequenceOf batches).take (offset batches k) := by
  rw [sequenceOf_split batches k]
  exact List.take_left.symm

/-- Nothing is held back when nothing is pending. -/
theorem Inv.held_eq_nil (hi : σ.Inv n batches sys h) (hpending : sys.NothingPending n) (e : ℕ) :
    h.held e = [] := by
  by_cases he : e < n
  · rw [List.eq_nil_iff_forall_not_mem]
    intro j hj
    obtain ⟨a, ha⟩ := List.exists_mem_of_ne_nil _ (hi.inv.part e j hj)
    have hq : h.queue σ.plan e a ≠ [] := List.ne_nil_of_mem (State.mem_queue.mpr ⟨hj, ha⟩)
    have hnil := hpending e he a
    rw [(hi.site e he).queues, queues, if_neg hq] at hnil
    exact hq (List.map_eq_nil_iff.mp hnil)
  · exact (hi.others e (Nat.le_of_not_lt he)).2

/-- The accounts of an executor when nothing is pending. -/
theorem Inv.union_eq (hi : σ.Inv n batches sys h) (hpending : sys.NothingPending n) (he : e < n)
    {a : ℕ} (ha : partition a = some e) :
    sys.union partition a = σ.value (offset batches (sys.taken e)) a := by
  have hhome : σ.plan.home a = e := by
    show partition.ownerD a = e
    unfold Partition.ownerD
    rw [ha]
    rfl
  have hunion : sys.union partition a = (sys.executors e).accountStore a := by
    unfold System.union unionStore
    rw [ha]
    rfl
  rw [hunion, (hi.site e he).store]
  dsimp only
  rw [if_pos ha]
  refine (hi.inv.eq_front (hi.held_eq_nil hpending _) ?_ fun j a hna => ?_).symm
  · rw [hhome, hi.taken e he]
  · exact value_of_notMem hna

theorem length_tasks (htasks : σ.tasks = tasksOf batches) :
    σ.tasks.length = (sequenceOf batches).length := by
  rw [htasks, ← map_txBytes_tasksOf, List.length_map]

theorem task_of_sequence (htasks : σ.tasks = tasksOf batches) {txBytes : Bytes}
    (hi : (sequenceOf batches)[i]? = some txBytes) :
    i < σ.tasks.length ∧ (σ.task i).txBytes = txBytes := by
  rw [← map_txBytes_tasksOf, ← htasks, List.getElem?_map, Option.map_eq_some_iff] at hi
  obtain ⟨t, ht, rfl⟩ := hi
  obtain ⟨hlt, rfl⟩ := List.getElem?_eq_some_iff.mp ht
  refine ⟨hlt, ?_⟩
  unfold task
  rw [List.getD_eq_getElem _ _ hlt]

/-- A transaction that the executors have taken has been executed when nothing is pending. -/
theorem Inv.hasExecuted (hi : σ.Inv n batches sys h) (htasks : σ.tasks = tasksOf batches)
    (hpending : sys.NothingPending n) (hk : sys.Processed n k) {txBytes : Bytes}
    (htx : txBytes ∈ sequenceOf (batches.take k))
    (hhome : ∀ j < σ.tasks.length, σ.plan.target j < n) : sys.HasExecuted n txBytes := by
  obtain ⟨j, hj⟩ := List.getElem?_of_mem htx
  have hlt : j < offset batches k := (List.getElem?_eq_some_iff.mp hj).1
  rw [sequenceOf_take, List.getElem?_take_of_lt hlt] at hj
  obtain ⟨hjN, rfl⟩ := task_of_sequence htasks hj
  have ht := hhome j hjN
  refine ⟨σ.plan.target j, ht, σ.id j, ?_, txIdOf_task hjN⟩
  refine ((hi.site _ ht).mem_executed _).mpr ⟨j, hjN, rfl, ⟨?_, ?_⟩, rfl⟩
  · rw [hi.taken _ ht, hk _ ht]
    exact hlt
  · rw [hi.held_eq_nil hpending]
    exact List.not_mem_nil

theorem Inv.nodup_executed (hi : σ.Inv n batches sys h) :
    ((List.range n).flatMap fun e => (sys.executors e).executed).Nodup := by
  rw [List.nodup_flatMap]
  refine ⟨fun e he => (hi.site e (List.mem_range.mp he)).nodup_executed,
    List.nodup_range.imp_of_mem fun {e e'} he he' hne id hid hid' => hne ?_⟩
  obtain ⟨j, hjN, rfl, -, hj⟩ := ((hi.site e (List.mem_range.mp he)).mem_executed id).mp hid
  obtain ⟨j', hjN', rfl, -, hj'⟩ := ((hi.site e' (List.mem_range.mp he')).mem_executed id).mp hid'
  rw [id_injective hjN hjN' (hj.trans hj'.symm)]

theorem Inv.nodup_writtenBack (hi : σ.Inv n batches sys h) :
    ((List.range n).flatMap fun e => (sys.executors e).writtenBack).Nodup := by
  rw [List.nodup_flatMap]
  refine ⟨fun e he => (hi.site e (List.mem_range.mp he)).nodup_writtenBack,
    List.nodup_range.imp_of_mem fun {e e'} he he' hne id hid hid' => hne ?_⟩
  obtain ⟨j, hs, rfl, -, hj⟩ := ((hi.site e (List.mem_range.mp he)).mem_writtenBack id).mp hid
  obtain ⟨j', hs', rfl, -, hj'⟩ :=
    ((hi.site e' (List.mem_range.mp he')).mem_writtenBack id).mp hid'
  rw [id_injective hs.1 hs'.1 (hj.trans hj'.symm)]

end Course

/-- No transaction is executed twice or written back twice, whoever does it. When nothing is
    pending, each account is as after executing, one after the other, the transactions of the
    batches that its executor has processed; after all batches every transaction has been
    executed, and the stores together are what one executor would have. -/
theorem union_eq_serial (cfg : Settings) (partition : Partition) (stores : ℕ → AccountStore)
    (batches : List Batch) (hadm : Admissible cfg partition stores batches)
    (hfit : DebitsFit (sequenceOf batches) (unionStore partition stores)) (events : List Event)
    (henough : ∀ event ∈ events, event.Enough batches) :
    ∃ sys, System.run cfg partition batches (System.initial partition stores) events = .ok sys ∧
      ((List.range cfg.numExecutors).flatMap fun e => (sys.executors e).executed).Nodup ∧
      ((List.range cfg.numExecutors).flatMap fun e => (sys.executors e).writtenBack).Nodup ∧
      (sys.NothingPending cfg.numExecutors →
        (∀ e < cfg.numExecutors, ∃ final,
          executeSerially (sequenceOf (batches.take (sys.taken e))) (unionStore partition stores) =
              .ok final ∧
            ∀ a, partition a = some e → sys.union partition a = final a) ∧
        ∀ k, sys.Processed cfg.numExecutors k →
          (∀ txBytes ∈ sequenceOf (batches.take k),
            sys.HasExecuted cfg.numExecutors txBytes) ∧
          executeSerially (sequenceOf (batches.take k)) (unionStore partition stores) =
            .ok (sys.union partition)) := by
  obtain ⟨σ, sys, h, hok, hi, hstore, htasks, -⟩ :=
    reach cfg partition stores batches hadm events henough
  refine ⟨sys, hok, hi.nodup_executed, hi.nodup_writtenBack, fun hpending => ?_⟩
  have hmap : σ.tasks.map Task.txBytes = sequenceOf batches := by
    rw [htasks, map_txBytes_tasksOf]
  have hserial : ∀ k, executeSerially (sequenceOf (batches.take k)) (unionStore partition stores) =
      .ok (σ.value (Course.offset batches k)) := by
    intro k
    have hle : Course.offset batches k ≤ σ.tasks.length := by
      rw [Course.length_tasks htasks]
      exact Course.offset_le batches k
    rw [← hmap, ← hstore] at hfit
    rw [Course.sequenceOf_take, ← hmap, ← hstore]
    exact Course.executeSerially_take hfit hle
  refine ⟨fun e he => ⟨_, hserial _, fun a ha => hi.union_eq hpending he ha⟩, fun k hk => ⟨?_, ?_⟩⟩
  · intro txBytes htx
    exact hi.hasExecuted htasks hpending hk htx fun j hj =>
      Course.home_lt hadm hj (Course.dest_mem hj)
  · rw [hserial]
    refine congrArg Except.ok (funext fun a => ?_)
    cases ha : partition a with
    | none =>
        have hnone : σ.value (Course.offset batches k) a = none := by
          rw [← Option.not_isSome_iff_eq_none, Course.isSome_value, ha]
          exact Bool.false_ne_true
        rw [hnone]
        unfold System.union unionStore
        rw [ha]
        rfl
    | some e =>
        have he := hadm.owned a e ha
        rw [hi.union_eq hpending he ha, hk e he]

/-- An account that does not exist has no queue. -/
theorem pendingQueues_eq_none (cfg : Settings) (partition : Partition)
    (stores : ℕ → AccountStore) (batches : List Batch)
    (hadm : Admissible cfg partition stores batches) (events : List Event)
    (henough : ∀ event ∈ events, event.Enough batches) (sys : System)
    (hrun : System.run cfg partition batches (System.initial partition stores) events = .ok sys)
    {e a : ℕ} (he : e < cfg.numExecutors) (ha : partition a = none) :
    (sys.executors e).pendingQueues a = none := by
  obtain ⟨σ, sys', h, hok, hi, -⟩ := reach cfg partition stores batches hadm events henough
  obtain rfl : sys = sys' := Except.ok.inj (hrun.symm.trans hok)
  have hqueue : h.queue σ.plan e a = [] := by
    refine List.eq_nil_iff_forall_not_mem.mpr fun j hj => ?_
    have hsome := Course.isSome_value_of_mem 0 (mem_part.mp (State.mem_queue.mp hj).2).1
    rw [Course.isSome_value, ha] at hsome
    cases hsome
  rw [(hi.site e he).queues, Course.queues, if_pos hqueue]

section Sample

namespace ReturnSample

open Fusion.AgreementSample (partition owned_partition payment batches)

def settings : Settings := ⟨2, fun _ => none⟩

/-- Each account is with its executor. -/
def stores (e : ℕ) : AccountStore := fun a =>
  if partition a = some e then some ⟨100, 100⟩ else none

def sbTx : SmallBankTransaction := ⟨.sendPayment, 0, 1, Double.ofBits 0⟩

theorem parse_payment : parseSmallbankPayload payment = some sbTx := by decide +kernel

theorem admissible : Admissible settings partition stores batches where
  owned := owned_partition
  stores e a := by
    unfold stores
    split <;> simp_all
  wellFormed b hb tx htx := by
    rw [List.mem_singleton.mp hb] at htx
    rw [List.mem_singleton.mp htx]
    exact ⟨sbTx, parse_payment, by decide, by decide⟩
  distinct := List.nodup_singleton _

theorem debitsFit : DebitsFit (sequenceOf batches) (unionStore partition stores) := by
  intro i bytes tx htx hparse htype before src hbefore hsrc
  have hone : (sequenceOf batches)[i]? = [payment][i]? := rfl
  rw [hone] at htx
  cases i with
  | succ i => simp at htx
  | zero =>
      obtain rfl : payment = bytes := by simpa using htx
      obtain rfl := Option.some.inj (parse_payment.symm.trans hparse)
      obtain rfl := Except.ok.inj hbefore
      obtain rfl := Option.some.inj hsrc
      decide +kernel

/-- The state of account 0 goes to executor 1 and back. -/
def events : List Event :=
  [.batch 0, .batch 1, .sendTransfer 0, .deliverTransfer 0,
    .processTransfers 1 (.inOrder batches), .sendWriteback 1, .deliverWriteback 0,
    .processWritebacks 0 (.inOrder batches)]

theorem enough : ∀ event ∈ events, event.Enough batches := by
  unfold events
  simp [Event.Enough, Iteration.inOrder]

def final : System :=
  (System.run settings partition batches (System.initial partition stores)
    events).toOption.getD (System.initial partition stores)

theorem run_final :
    System.run settings partition batches (System.initial partition stores) events =
      .ok final :=
  eq_ok_of_isOk _ (by decide +kernel)

theorem processed_final : final.Processed 2 1 := by
  unfold System.Processed
  decide +kernel

theorem nothingPending_final : final.NothingPending 2 := by
  have htwo : ∀ e < 2, ∀ a < 2, ((final.executors e).pendingQueues a).getD [] = [] := by
    decide +kernel
  intro e he a
  by_cases ha : a < 2
  · exact htwo e he a ha
  · rw [pendingQueues_eq_none settings partition stores batches admissible events enough final
      run_final he (if_neg ha)]
    rfl

end ReturnSample

open ReturnSample
open Fusion.AgreementSample (partition batches)

/-- Both executors have what one executor would have. -/
theorem union_eq_serial_sample :
    ∃ sys, System.run settings partition batches (System.initial partition stores) events =
        .ok sys ∧
      ((List.range 2).flatMap fun e => (sys.executors e).executed).Nodup ∧
      ((List.range 2).flatMap fun e => (sys.executors e).writtenBack).Nodup ∧
      (∀ e < 2, ∃ store,
        executeSerially (sequenceOf (batches.take (sys.taken e)))
            (unionStore partition stores) = .ok store ∧
          ∀ a, partition a = some e → sys.union partition a = store a) ∧
      (∀ txBytes ∈ sequenceOf batches, sys.HasExecuted 2 txBytes) ∧
      executeSerially (sequenceOf batches) (unionStore partition stores) =
        .ok (sys.union partition) := by
  obtain ⟨sys, hok, hexecuted, hwritten, hserial⟩ :=
    union_eq_serial settings partition stores batches admissible debitsFit events enough
  obtain rfl : final = sys := Except.ok.inj (run_final.symm.trans hok)
  obtain ⟨hown, hall⟩ := hserial nothingPending_final
  exact ⟨final, hok, hexecuted, hwritten, hown, hall 1 processed_final⟩

end Sample

end DagBft.Writeback
