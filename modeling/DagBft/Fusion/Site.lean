/-
  One `BatchExecutor` as a site of a handover (`Lib/Handover`): the transactions in
  sequence order are the jobs, the accounts are the cells, and a transaction that goes to
  the executor's pending queues is held back.

  `Site` relates an executor to the state of the handover. `processIncomingTransfers_spec`
  and `handleAll_spec` are the two parts of `execute_batch`: neither of them panics, both
  are steps of the site, and afterwards the executor has nothing left that it could do with
  the accounts in its store.
-/
import DagBft.Fusion.Agreement
import DagBft.Lib.Handover
import Mathlib.Data.List.GetD
import Mathlib.Data.Multiset.Filter

namespace DagBft.Fusion

open Worker Handover

/-- A transaction of the sequence with its batch and its schedule. -/
structure Task where
  digest : Bytes
  tx : Scheduled
  sbTx : SmallBankTransaction

instance : Inhabited Task :=
  ⟨⟨[], ⟨[], ⟨0, ⟨0, 0⟩⟩, [], 0⟩, ⟨.balance, 0, 0, Double.ofBits 0⟩⟩⟩

/-- The accounts of a transaction after it, whoever executes it. -/
def effect (sbTx : SmallBankTransaction) (store : AccountStore) : AccountStore :=
  match Executor.executeSmallBank store sbTx with
  | .ok (store, _) => store
  | .error _ => store

/-- The accounts of the transaction are different, or they are all with its target. -/
def Settled (before : Partition) (tx : Scheduled) : Prop :=
  tx.requiredAccounts.Nodup ∨ ∀ a ∈ tx.requiredAccounts, before.ownerD a = tx.target

/-- Each of the transactions is settled when its turn comes. -/
def SettledFrom : Partition → List Scheduled → Prop
  | _, [] => True
  | before, tx :: txs =>
      Settled before tx ∧ SettledFrom (before.move tx.requiredAccounts tx.target) txs

theorem settledFrom_append {before : Partition} {txs txs' : List Scheduled} :
    SettledFrom before (txs ++ txs') ↔
      SettledFrom before txs ∧ SettledFrom (before.movedBy txs) txs' := by
  induction txs generalizing before with
  | nil => exact (and_iff_right trivial).symm
  | cons tx txs ih =>
      rw [List.cons_append, SettledFrom, SettledFrom, ih, and_assoc]
      rfl

theorem settledFrom_of_nodup {before : Partition} {txs : List Scheduled}
    (h : ∀ tx ∈ txs, tx.requiredAccounts.Nodup) : SettledFrom before txs := by
  induction txs generalizing before with
  | nil => exact trivial
  | cons tx txs ih =>
      rw [List.forall_mem_cons] at h
      exact ⟨Or.inl h.1, ih h.2⟩

/-- The transactions in sequence order over the accounts that there are. -/
structure Course (cfg : Settings) where
  initial : Partition
  store : AccountStore
  tasks : List Task
  owned : initial.Owned cfg.numExecutors
  isSome_store : ∀ a, (store a).isSome ↔ (initial a).isSome
  good : ∀ t ∈ tasks, t.tx.Good initial cfg.numExecutors
  payload : ∀ t ∈ tasks, parseSmallbankPayload t.tx.txBytes = some t.sbTx
  distinct : (tasks.map fun t => t.tx.header.id).Nodup
  settled : SettledFrom initial (tasks.map Task.tx)

namespace Course

variable {cfg : Settings} (σ : Course cfg)

def task (j : ℕ) : Task := σ.tasks.getD j default

def id (j : ℕ) : TxID := (σ.task j).tx.header.id

def accounts (j : ℕ) : List ℕ := (σ.task j).tx.requiredAccounts

def plan : Plan ℕ ℕ := ⟨fun j => ⟨σ.accounts j, (σ.task j).tx.target⟩, σ.initial.ownerD⟩

/-- The partition before transaction `j`. -/
def before (j : ℕ) : Partition := σ.initial.movedBy ((σ.tasks.take j).map Task.tx)

/-- The accounts after the first `j` transactions, executed one after the other. -/
def value (j : ℕ) : AccountStore := (σ.tasks.take j).foldl (fun s t => effect t.sbTx s) σ.store

def locality (e j : ℕ) : TransactionLocality :=
  localityOf e (σ.before j) (σ.accounts j) (σ.task j).tx.target

/-- Transaction `j` in the queues of an executor. -/
def pending (e j : ℕ) : PendingTransaction where
  txBytes := (σ.task j).tx.txBytes
  txHeader := (σ.task j).tx.header
  sbTx := (σ.task j).sbTx
  batchDigest := (σ.task j).digest
  requiredAccounts := if σ.plan.target j = e then σ.accounts j else []
  locality := σ.locality e j

variable {σ} {e j : ℕ}

theorem task_mem (h : j < σ.tasks.length) : σ.task j ∈ σ.tasks := by
  unfold task
  rw [List.getD_eq_getElem _ _ h]
  exact List.getElem_mem h

theorem accounts_of_le (h : σ.tasks.length ≤ j) : σ.accounts j = [] := by
  unfold accounts task
  rw [List.getD_eq_default _ _ h]
  rfl

theorem lt_of_mem {a : ℕ} (h : a ∈ σ.accounts j) : j < σ.tasks.length := by
  by_contra hge
  rw [accounts_of_le (Nat.le_of_not_lt hge)] at h
  cases h

theorem cells_plan : σ.plan.cells j = σ.accounts j := rfl

theorem id_injective {i : ℕ} (hi : i < σ.tasks.length) (hj : j < σ.tasks.length)
    (h : σ.id i = σ.id j) : i = j := by
  have hid : ∀ k, k < σ.tasks.length →
      (σ.tasks.map fun t => t.tx.header.id)[k]? = some (σ.id k) := by
    intro k hk
    rw [List.getElem?_map, List.getElem?_eq_getElem hk]
    unfold id task
    rw [List.getD_eq_getElem _ _ hk]
    rfl
  refine (List.getElem?_inj (by simpa using hi) σ.distinct).mp ?_
  rw [hid i hi, hid j hj, h]

theorem before_succ (j : ℕ) :
    σ.before (j + 1) = (σ.before j).move (σ.accounts j) (σ.task j).tx.target := by
  unfold before
  by_cases h : j < σ.tasks.length
  · rw [List.take_add_one, List.getElem?_eq_getElem h, List.map_append, Partition.movedBy_append]
    unfold accounts task
    rw [List.getD_eq_getElem _ _ h]
    rfl
  · have hle : σ.tasks.length ≤ j := Nat.le_of_not_lt h
    rw [accounts_of_le hle, List.take_of_length_le hle, List.take_of_length_le (by omega)]
    rfl

theorem ownerD_before (j a : ℕ) : (σ.before j).ownerD a = σ.plan.owner j a := by
  induction j with
  | zero => rfl
  | succ j ih =>
      rw [before_succ, Plan.owner, ← ih]
      unfold Partition.ownerD Partition.move
      by_cases h : a ∈ σ.accounts j
      · rw [if_pos h, if_pos (show a ∈ σ.plan.cells j from h)]
        rfl
      · rw [if_neg h, if_neg (show a ∉ σ.plan.cells j from h)]

theorem value_succ (j : ℕ) (h : j < σ.tasks.length) :
    σ.value (j + 1) = effect (σ.task j).sbTx (σ.value j) := by
  unfold value task
  rw [List.take_add_one, List.getElem?_eq_getElem h, List.foldl_append,
    List.getD_eq_getElem _ _ h]
  rfl

theorem target_eq (j : ℕ) : σ.plan.target j = (σ.task j).tx.target := rfl

/-- What the locality says in terms of the handover. -/
theorem locality_eq (e j : ℕ) : σ.locality e j =
    if σ.plan.target j = e then
      if ∀ a ∈ σ.accounts j, σ.plan.owner j a = e then .local
      else .migrateIn (((σ.accounts j).filter fun a => σ.plan.owner j a ≠ e).map fun a =>
        (a, σ.plan.owner j a))
    else if σ.plan.touches e j = [] then .others (σ.plan.target j)
    else .migrateOut (σ.plan.touches e j)
      ((σ.accounts j).filter fun a => σ.plan.owner j a ≠ e) (σ.plan.target j) := by
  unfold locality localityOf Plan.touches
  simp only [ownerD_before, ← target_eq, ← cells_plan]
  by_cases h : σ.plan.target j = e
  · rw [if_pos h, if_pos h]
    refine if_congr ?_ rfl rfl
    rw [List.filter_eq_nil_iff]
    simp
  · rw [if_neg h, if_neg h, if_neg h]

theorem touches_of_target (h : σ.plan.target j = e) : σ.plan.touches e j = σ.accounts j := by
  unfold Plan.touches
  rw [if_pos h]
  rfl

/-- The accounts are different, or they are all with the target. -/
theorem settled_at (j : ℕ) :
    (σ.accounts j).Nodup ∨ ∀ a ∈ σ.accounts j, σ.plan.owner j a = σ.plan.target j := by
  by_cases h : j < σ.tasks.length
  · have hset := σ.settled
    rw [← List.take_append_drop j σ.tasks, List.map_append, settledFrom_append,
      List.drop_eq_getElem_cons h, List.map_cons] at hset
    have htask : σ.task j = σ.tasks[j] := List.getD_eq_getElem _ _ h
    obtain ⟨-, hj, -⟩ := hset
    unfold Settled at hj
    rw [← htask] at hj
    refine hj.imp_right fun hall a ha => ?_
    rw [← ownerD_before]
    exact hall a ha
  · rw [accounts_of_le (Nat.le_of_not_lt h)]
    exact Or.inl List.nodup_nil

/-- An account is sent, or waited for, once. -/
theorem nodup_filter_owner {p : ℕ → Bool}
    (h : ∀ a ∈ σ.accounts j, σ.plan.owner j a = σ.plan.target j → p a = false) :
    ((σ.accounts j).filter p).Nodup := by
  rcases settled_at (σ := σ) j with hnodup | hall
  · exact hnodup.filter _
  · rw [List.filter_eq_nil_iff.mpr fun a ha => by simp [h a ha (hall a ha)]]
    exact List.nodup_nil

theorem nodup_touches (he : σ.plan.target j ≠ e) : (σ.plan.touches e j).Nodup := by
  unfold Plan.touches
  rw [if_neg he]
  exact nodup_filter_owner fun a _ ho => by simpa [ho] using he

theorem lt_of_touches (h : σ.plan.touches e j ≠ []) : j < σ.tasks.length := by
  obtain ⟨a, ha⟩ := List.exists_mem_of_ne_nil _ h
  exact lt_of_mem (Plan.mem_cells_of_mem_touches ha)

theorem id_pending : (σ.pending e j).txHeader.id = σ.id j := rfl

/-! ## The accounts -/

theorem requiredAccounts_eq (h : j < σ.tasks.length) :
    (σ.task j).sbTx.requiredAccounts = σ.accounts j := by
  obtain ⟨sbTx, hparse, hreq⟩ := (σ.good _ (task_mem h)).required
  rw [σ.payload _ (task_mem h)] at hparse
  rw [Option.some.inj hparse]
  exact hreq.symm

end Course

theorem isSome_update {store : AccountStore} {account : ℕ}
    {f : AccountState → AccountState × Bool} {r : AccountStore × Bool}
    (h : store.update account f = some r) (a : ℕ) : (r.1 a).isSome = (store a).isSome := by
  unfold AccountStore.update at h
  obtain ⟨v, hv, rfl⟩ := Option.map_eq_some_iff.mp h
  by_cases ha : a = account
  · subst ha
    simp [hv]
  · simp [ha]

theorem isSome_of_update {account : ℕ} {f : AccountState → AccountState × Bool}
    {r : AccountStore × Bool} {store : AccountStore} (a : ℕ)
    (h : (match store.update account f with
      | some r => Except.ok r
      | none => .error Panic.accountNotFound) = .ok r) : (r.1 a).isSome = (store a).isSome := by
  split at h
  · rename_i hupdate
    cases h
    exact isSome_update hupdate a
  · cases h

/-- No account comes or goes. -/
theorem isSome_effect (sbTx : SmallBankTransaction) (store : AccountStore) (a : ℕ) :
    (effect sbTx store a).isSome = (store a).isSome := by
  unfold effect
  cases h : Executor.executeSmallBank store sbTx with
  | error panic => rfl
  | ok r =>
      obtain ⟨store', success⟩ := r
      show (store' a).isSome = (store a).isSome
      unfold Executor.executeSmallBank at h
      cases htype : sbTx.txType with
      | sendPayment =>
          simp only [htype] at h
          split at h
          · obtain ⟨⟨store₁, debitSuccess⟩, hdebit, h⟩ := bind_eq_ok.mp h
            have hfirst := isSome_of_update a hdebit
            dsimp only at h hfirst
            split at h
            · exact (isSome_of_update a h).trans hfirst
            · cases h
              exact hfirst
          · cases h
      | _ =>
          simp only [htype] at h
          exact isSome_of_update a h

/-- The effect of a transaction is on its own accounts, and depends on them alone. -/
theorem executeSmallBank_eq {store g : AccountStore} {sbTx : SmallBankTransaction}
    (hsome : ∀ a ∈ sbTx.requiredAccounts, (g a).isSome)
    (heq : ∀ a ∈ sbTx.requiredAccounts, store a = g a) :
    ∃ success, Executor.executeSmallBank store sbTx = .ok (fun a =>
      if a ∈ sbTx.requiredAccounts then effect sbTx g a else store a, success) := by
  unfold effect Executor.executeSmallBank
  unfold SmallBankTransaction.requiredAccounts at *
  cases htype : sbTx.txType with
  | sendPayment =>
      simp only [htype, List.mem_cons, List.not_mem_nil, or_false, forall_eq_or_imp, forall_eq]
        at hsome heq ⊢
      obtain ⟨v, hv⟩ := Option.isSome_iff_exists.mp hsome.1
      obtain ⟨w, hw⟩ := Option.isSome_iff_exists.mp hsome.2
      simp only [AccountStore.update, heq.1, heq.2, hv, hw, Option.isSome_some, and_self, if_true,
        Option.map_some, bind, Except.bind]
      by_cases hsuccess : (v.executeSendPaymentDebit sbTx.amount).2
      · by_cases hsame : sbTx.destAccountId = sbTx.accountId
        · simp only [hsuccess, if_true, hsame, Function.update_self, Option.map_some]
          refine ⟨true, congrArg Except.ok (Prod.ext (funext fun a => ?_) rfl)⟩
          by_cases ha : a = sbTx.accountId
          · simp [ha]
          · simp [ha]
        · simp only [hsuccess, if_true, Function.update_of_ne hsame, heq.2, hw, Option.map_some]
          refine ⟨true, congrArg Except.ok (Prod.ext (funext fun a => ?_) rfl)⟩
          by_cases ha : a = sbTx.destAccountId
          · simp [ha]
          · by_cases ha' : a = sbTx.accountId
            · subst ha'
              simp [ha]
            · simp [ha, ha']
      · simp only [hsuccess, if_false, Bool.false_eq_true]
        refine ⟨false, congrArg Except.ok (Prod.ext (funext fun a => ?_) rfl)⟩
        by_cases ha : a = sbTx.accountId
        · simp [ha]
        · by_cases ha' : a = sbTx.destAccountId
          · subst ha'
            simp [ha, hw, heq.2]
          · simp [ha, ha']
  | _ =>
      simp only [htype, List.mem_singleton, forall_eq] at hsome heq ⊢
      obtain ⟨v, hv⟩ := Option.isSome_iff_exists.mp hsome
      simp only [AccountStore.update, heq, hv, Option.map_some]
      refine ⟨_, congrArg Except.ok (Prod.ext (funext fun a => ?_) rfl)⟩
      by_cases ha : a = sbTx.accountId
      · simp [ha]
      · simp [ha]

theorem effect_of_notMem {store : AccountStore} {sbTx : SmallBankTransaction}
    (hsome : ∀ a ∈ sbTx.requiredAccounts, (store a).isSome) {a : ℕ}
    (ha : a ∉ sbTx.requiredAccounts) : effect sbTx store a = store a := by
  obtain ⟨success, h⟩ := executeSmallBank_eq hsome fun _ _ => rfl
  conv_lhs => unfold effect
  rw [h]
  simp only [if_neg ha]

namespace Course

variable {cfg : Settings} {σ : Course cfg} {e j a : ℕ}

theorem isSome_value (j a : ℕ) : (σ.value j a).isSome ↔ (σ.initial a).isSome := by
  rw [← σ.isSome_store]
  unfold value
  generalize σ.tasks.take j = l
  induction l using List.reverseRecOn with
  | nil => rfl
  | append_singleton l t ih =>
      rw [List.foldl_append, List.foldl_cons, List.foldl_nil, isSome_effect, ih]

theorem isSome_value_of_mem (i : ℕ) (h : a ∈ σ.accounts j) : (σ.value i a).isSome :=
  (isSome_value i a).mpr ((σ.good _ (task_mem (lt_of_mem h))).known a h)

theorem value_of_notMem (h : a ∉ σ.accounts j) : σ.value (j + 1) a = σ.value j a := by
  by_cases hj : j < σ.tasks.length
  · rw [value_succ j hj]
    refine effect_of_notMem (fun b hb => ?_) ?_
    · rw [requiredAccounts_eq hj] at hb
      exact isSome_value_of_mem j hb
    · rwa [requiredAccounts_eq hj]
  · unfold value
    rw [List.take_of_length_le (by omega), List.take_of_length_le (by omega)]

/-- What has run last on an account determines its state. -/
theorem value_eq_of_clear {i : ℕ} (h : σ.plan.Clear a i j) (hij : i ≤ j) :
    σ.value j a = σ.value i a :=
  h.eq (fun k b (hna : b ∉ σ.plan.cells k) => value_of_notMem hna) hij

end Course

/-! ## The functions of the executor -/

namespace Executor

variable {cfg : Settings} {s : Executor}

theorem executeMigrateOut_eq (txId : TxID) (dest : ℕ) {v : ℕ → AccountState} {accounts : List ℕ}
    (hnodup : accounts.Nodup) (hv : ∀ a ∈ accounts, s.accountStore a = some (v a)) :
    executeMigrateOut txId dest accounts s = .ok { s with
      accountStore := fun a => if a ∈ accounts then none else s.accountStore a
      txSendState := s.txSendState ++ accounts.map fun a => ⟨⟨txId, a, v a⟩, dest⟩ } := by
  induction accounts generalizing s with
  | nil => simp [executeMigrateOut]
  | cons account accounts ih =>
      rw [List.nodup_cons] at hnodup
      rw [List.forall_mem_cons] at hv
      unfold executeMigrateOut
      rw [hv.1]
      dsimp only
      rw [ih hnodup.2 fun a ha => ?_]
      · congr 2
        · funext a
          by_cases h : a ∈ accounts
          · simp [h]
          · by_cases ha : a = account
            · simp [ha]
            · simp [h, ha]
        · simp
      · have hne : a ≠ account := fun h => hnodup.1 (h ▸ ha)
        simp [hne, hv.2 a ha]

theorem popLoop_eq {tx : PendingTransaction} {rest : ℕ → List PendingTransaction}
    {accounts : List ℕ} {queues : PendingQueues} {pending : Option PendingTransaction}
    (hhead : ∀ a ∈ accounts,
      queues a = some (List.replicate (accounts.count a) tx ++ rest a)) :
    popLoop tx.txHeader.id accounts queues pending =
      .ok (fun a => if a ∈ accounts then some (rest a) else queues a,
        if accounts = [] then pending else some tx) := by
  induction accounts generalizing queues pending with
  | nil => simp [popLoop]
  | cons account accounts ih =>
      have hfirst := hhead account List.mem_cons_self
      rw [List.count_cons_self, List.replicate_succ, List.cons_append] at hfirst
      unfold popLoop
      rw [hfirst]
      dsimp only
      rw [if_pos rfl, ih fun a ha => ?_]
      · refine congrArg Except.ok (Prod.ext (funext fun a => ?_) ?_)
        · by_cases h : a ∈ accounts
          · simp [h]
          · by_cases ha : a = account
            · subst ha
              simp [h, List.count_eq_zero_of_not_mem h]
            · simp [h, ha]
        · simp
      · by_cases hane : a = account
        · rw [hane, Function.update_self]
        · rw [Function.update_of_ne hane, hhead a (List.mem_cons_of_mem _ ha),
            List.count_cons_of_ne (Ne.symm hane)]

theorem popTransactionFromAccounts_eq (tx : PendingTransaction)
    (rest : ℕ → List PendingTransaction) {accounts : List ℕ} (hne : accounts ≠ [])
    (hhead : ∀ a ∈ accounts,
      s.pendingQueues a = some (List.replicate (accounts.count a) tx ++ rest a)) :
    s.popTransactionFromAccounts accounts tx.txHeader.id = .ok (tx, { s with
      pendingQueues := fun a =>
        if a ∈ accounts then if rest a = [] then none else some (rest a)
        else s.pendingQueues a }) := by
  unfold popTransactionFromAccounts
  rw [popLoop_eq hhead, if_neg hne]
  refine congrArg (fun q => Except.ok (tx, { s with pendingQueues := q })) (funext fun a => ?_)
  unfold removeEmpty
  by_cases h : a ∈ accounts
  · by_cases hr : rest a = []
    · simp [h, hr]
    · simp [h, hr]
  · simp [h]

theorem pushBack_eq {tx : PendingTransaction} {accounts : List ℕ} {queues : PendingQueues} :
    pushBack tx accounts queues = fun a =>
      if a ∈ accounts then
        some ((queues a).getD [] ++ List.replicate (accounts.count a) tx)
      else queues a := by
  induction accounts generalizing queues with
  | nil => simp [pushBack]
  | cons account accounts ih =>
      unfold pushBack
      rw [ih]
      funext a
      by_cases ha : a = account
      · subst ha
        by_cases hmem : a ∈ accounts
        · simp [hmem, List.replicate_succ]
        · simp [hmem, List.count_eq_zero_of_not_mem hmem]
      · simp [ha, List.count_cons_of_ne (Ne.symm ha)]

/-- A transaction whose accounts are in the store with the states that `g` gives them. -/
theorem executeSingleLocalTransaction_eq {g : AccountStore} {txBytes : Bytes} (digest : Bytes)
    (header : TransactionHeader) {sbTx : SmallBankTransaction}
    (hparse : parseSmallbankPayload txBytes = some sbTx)
    (hsome : ∀ a ∈ sbTx.requiredAccounts, (g a).isSome)
    (heq : ∀ a ∈ sbTx.requiredAccounts, s.accountStore a = g a) :
    ∃ replies, executeSingleLocalTransaction cfg s digest txBytes header = .ok { s with
      executed := s.executed ++ [header.id]
      accountStore := fun a =>
        if a ∈ sbTx.requiredAccounts then effect sbTx g a else s.accountStore a
      txClientReply := replies } := by
  obtain ⟨success, hok⟩ := executeSmallBank_eq hsome heq
  unfold executeSingleLocalTransaction
  simp only [hparse, hok, bind, Except.bind]
  split
  · split
    · exact ⟨_, rfl⟩
    · exact ⟨_, rfl⟩
  · exact ⟨_, rfl⟩

/-- The states of transfers of different accounts are put into the store. -/
theorem foldl_update_eq {l : List StateTransfer} (store : AccountStore)
    (hnodup : (l.map StateTransfer.srcAccountId).Nodup) (a : ℕ) :
    (∀ t ∈ l, t.srcAccountId = a → (l.foldl (fun (store : AccountStore) t =>
      Function.update store t.srcAccountId (some t.srcAccountState)) store) a =
        some t.srcAccountState) ∧
    ((∀ t ∈ l, t.srcAccountId ≠ a) → (l.foldl (fun (store : AccountStore) t =>
      Function.update store t.srcAccountId (some t.srcAccountState)) store) a = store a) := by
  induction l generalizing store with
  | nil => simp
  | cons x l ih =>
      rw [List.map_cons, List.nodup_cons] at hnodup
      have ih := ih (Function.update store x.srcAccountId (some x.srcAccountState)) hnodup.2
      rw [List.foldl_cons]
      refine ⟨fun t ht hta => ?_, fun hne => ?_⟩
      · rcases List.mem_cons.mp ht with rfl | ht
        · rw [ih.2 fun t' ht' he => hnodup.1 ?_, ← hta, Function.update_self]
          rw [hta, ← he]
          exact List.mem_map_of_mem ht'
        · exact ih.1 t ht hta
      · rw [List.forall_mem_cons] at hne
        rw [ih.2 hne.2, Function.update_of_ne (Ne.symm hne.1)]

end Executor

/-! ## The executor as a site -/

/-- The transfers that an executor wants to send, and those that it has received. -/
def Executor.transfers (s : Executor) : Multiset StateTransferRequest :=
  (s.txSendState : Multiset StateTransferRequest) +
    (s.incomingTransfers.all + s.drainedIncomingTransfers.all).map
      fun t => (⟨t, s.executorId⟩ : StateTransferRequest)

namespace Course

variable {cfg : Settings} (σ : Course cfg) (h : State ℕ ℕ) (e : ℕ)

/-- The queue of an account when these transactions are held back: a payment of an account to
    itself is in the queue twice. -/
def queue (held : List ℕ) (a : ℕ) : List PendingTransaction :=
  held.flatMap fun j => List.replicate ((σ.plan.touches e j).count a) (σ.pending e j)

def queues (held : List ℕ) : PendingQueues := fun a =>
  if σ.queue e held a = [] then none else some (σ.queue e held a)

/-- The accounts in the store, with their states. -/
def stored : AccountStore := fun a =>
  if h.loc a = .store e then σ.value (h.front a) a else none

/-- The transfer that an account is on its way with. -/
def onTheWay (a : ℕ) : Multiset StateTransferRequest :=
  match h.loc a, σ.value (h.front a) a with
  | .moving j, some v => {⟨⟨σ.id j, a, v⟩, σ.plan.target j⟩}
  | _, _ => 0

/-- These are the transfers that there are. -/
def Traffic (m : Multiset StateTransferRequest) : Prop :=
  ∀ a, m.filter (fun r => r.stateTransfer.srcAccountId = a) = σ.onTheWay h a

/-- An executor but for its queues. -/
structure Contents (s : Executor) : Prop where
  executorId : s.executorId = e
  store : s.accountStore = σ.stored h e
  nodup : s.executed.Nodup
  /-- It has executed what it is the target of and is through with. -/
  mem_executed : ∀ id, id ∈ s.executed ↔
    ∃ j < σ.tasks.length, σ.id j = id ∧ σ.plan.target j = e ∧ h.Done e j
  incoming : s.incomingTransfers.Tidy
  drained : s.drainedIncomingTransfers.Tidy

/-- An executor as the site `e`. -/
structure Site (s : Executor) : Prop extends Contents σ h e s where
  queues : s.pendingQueues = σ.queues e (h.held e)

variable {σ h e} {s : Executor} {j a : ℕ} {held : List ℕ}

/-! ### Queues -/

theorem filter_of_head {l : List ℕ} {p : ℕ → Bool} (hs : l.Pairwise (· < ·)) (hj : j ∈ l)
    (hp : p j = true) (hmin : ∀ i ∈ l, i < j → p i = false) :
    l.filter p = j :: (l.erase j).filter p := by
  induction l with
  | nil => cases hj
  | cons x l ih =>
      rw [List.pairwise_cons] at hs
      by_cases hx : x = j
      · subst hx
        rw [List.erase_cons_head, List.filter_cons_of_pos hp]
      · have hmem : j ∈ l := (List.mem_cons.mp hj).resolve_left (Ne.symm hx)
        have hpx : ¬ p x = true := by simp [hmin x List.mem_cons_self (hs.1 j hmem)]
        rw [List.erase_cons_tail (by simpa using hx), List.filter_cons_of_neg hpx,
          List.filter_cons_of_neg hpx]
        exact ih hs.2 hmem fun i hi => hmin i (List.mem_cons_of_mem _ hi)

/-- The first of those that satisfy `p` is `j`, if any does. -/
theorem head?_filter_iff {l : List ℕ} {p : ℕ → Bool} (hs : l.Pairwise (· < ·))
    (hj : j ∈ l ∧ p j = true ∨ ∀ i ∈ l, i < j) :
    (∀ i ∈ (l.filter p).head?, i = j) ↔ ∀ i ∈ l, i < j → p i = false := by
  have hsf : (l.filter p).Pairwise (· < ·) := hs.sublist List.filter_sublist
  cases hf : l.filter p with
  | nil =>
      rw [List.filter_eq_nil_iff] at hf
      simp only [List.head?_nil, Option.not_mem_none, false_implies, implies_true, true_iff]
      exact fun i hi _ => by simpa using hf i hi
  | cons k rest =>
      rw [hf, List.pairwise_cons] at hsf
      have hmem : ∀ i, i ∈ k :: rest ↔ i ∈ l ∧ p i = true := fun i => by rw [← hf, List.mem_filter]
      have hk := (hmem k).mp List.mem_cons_self
      simp only [List.head?_cons, Option.mem_some_iff, forall_eq']
      constructor
      · rintro rfl i hi hlt
        by_contra hp
        rcases List.mem_cons.mp ((hmem i).mpr ⟨hi, by simpa using hp⟩) with rfl | hir
        · exact lt_irrefl _ hlt
        · exact absurd (hsf.1 i hir) (by omega)
      · intro hmin
        have hge : ¬ k < j := fun hlt => by simp [hmin k hk.1 hlt] at hk
        rcases hj with ⟨hjl, hpj⟩ | hall
        · rcases List.mem_cons.mp ((hmem j).mpr ⟨hjl, hpj⟩) with rfl | hjr
          · rfl
          · exact absurd (hsf.1 j hjr) (by omega)
        · exact absurd (hall k hk.1) hge

theorem mem_queue {p : PendingTransaction} : p ∈ σ.queue e held a ↔
    ∃ j ∈ held, a ∈ σ.plan.touches e j ∧ p = σ.pending e j := by
  unfold queue
  simp only [List.mem_flatMap, List.mem_replicate, ne_eq, List.count_eq_zero, not_not]

theorem queue_cons (i : ℕ) (held : List ℕ) : σ.queue e (i :: held) a =
    List.replicate ((σ.plan.touches e i).count a) (σ.pending e i) ++ σ.queue e held a := by
  unfold queue
  rw [List.flatMap_cons]

theorem queue_append (i a : ℕ) : σ.queue e (held ++ [i]) a =
    σ.queue e held a ++ List.replicate ((σ.plan.touches e i).count a) (σ.pending e i) := by
  unfold queue
  rw [List.flatMap_append, List.flatMap_singleton]

/-- The first transaction in the queue is the first that is held back on the account. -/
theorem head?_queue (held : List ℕ) (a : ℕ) : (σ.queue e held a).head? =
    (held.filter fun i => a ∈ σ.plan.touches e i).head?.map (σ.pending e) := by
  induction held with
  | nil => rfl
  | cons i held ih =>
      rw [queue_cons]
      by_cases ha : a ∈ σ.plan.touches e i
      · obtain ⟨n, hn⟩ := Nat.exists_eq_succ_of_ne_zero (List.count_pos_iff.mpr ha).ne'
        rw [hn, List.filter_cons_of_pos (by simpa using ha)]
        rfl
      · rw [List.count_eq_zero_of_not_mem ha, List.filter_cons_of_neg (by simpa using ha)]
        exact ih

theorem queue_eq_nil_of_filter (h : (held.filter fun i => a ∈ σ.plan.touches e i) = []) :
    σ.queue e held a = [] := by
  rw [← List.head?_eq_none_iff, head?_queue, h]
  rfl

theorem queue_of_filter {k : ℕ} {tail : List ℕ}
    (h : (held.filter fun i => a ∈ σ.plan.touches e i) = k :: tail) :
    ∃ rest, σ.queue e held a = σ.pending e k :: rest := by
  have hhead := head?_queue (σ := σ) (e := e) held a
  rw [h, List.head?_cons, Option.map_some, List.head?_eq_some_iff] at hhead
  exact hhead

/-- Those on the account that are earlier are none: the transaction is at the head, as often as
    it names the account. -/
theorem queue_of_head (hs : held.Pairwise (· < ·)) (hj : j ∈ held)
    (hhead : a ∈ σ.plan.touches e j → ∀ i ∈ held, i < j → a ∉ σ.plan.touches e i) :
    σ.queue e held a = List.replicate ((σ.plan.touches e j).count a) (σ.pending e j) ++
      σ.queue e (held.erase j) a := by
  induction held with
  | nil => cases hj
  | cons x held ih =>
      rw [List.pairwise_cons] at hs
      by_cases hx : x = j
      · rw [hx, List.erase_cons_head, queue_cons]
      · have hmem : j ∈ held := (List.mem_cons.mp hj).resolve_left (Ne.symm hx)
        have ih := ih hs.2 hmem fun ha i hi => hhead ha i (List.mem_cons_of_mem _ hi)
        rw [List.erase_cons_tail (by simpa using hx), queue_cons, queue_cons, ih]
        by_cases ha : a ∈ σ.plan.touches e j
        · rw [List.count_eq_zero_of_not_mem (hhead ha x List.mem_cons_self (hs.1 j hmem))]
          rfl
        · rw [List.count_eq_zero_of_not_mem ha]
          rfl

/-- Putting a transaction into the queues. -/
theorem queues_append (i : ℕ) :
    Executor.pushBack (σ.pending e i) (σ.plan.touches e i) (σ.queues e held) =
      σ.queues e (held ++ [i]) := by
  rw [Executor.pushBack_eq]
  funext a
  unfold queues
  rw [queue_append]
  by_cases ha : a ∈ σ.plan.touches e i
  · have hne : (σ.plan.touches e i).count a ≠ 0 := (List.count_pos_iff.mpr ha).ne'
    by_cases hq : σ.queue e held a = []
    · simp [ha, hq, hne]
    · simp [ha, hq]
  · simp [ha, List.count_eq_zero_of_not_mem ha]

/-- Taking a transaction out of the queues. -/
theorem queues_erase (hs : held.Pairwise (· < ·)) (hj : j ∈ held)
    (hhead : ∀ i ∈ held, i < j → ∀ a ∈ σ.plan.touches e j, a ∉ σ.plan.touches e i)
    (hne : σ.plan.touches e j ≠ []) (hq : s.pendingQueues = σ.queues e held) :
    s.popTransactionFromAccounts (σ.plan.touches e j) (σ.id j) =
      .ok (σ.pending e j, { s with pendingQueues := σ.queues e (held.erase j) }) := by
  have hqueue : ∀ a, σ.queue e held a =
      List.replicate ((σ.plan.touches e j).count a) (σ.pending e j) ++
        σ.queue e (held.erase j) a := fun a =>
    queue_of_head hs hj fun ha i hi hlt => hhead i hi hlt a ha
  refine (Executor.popTransactionFromAccounts_eq (σ.pending e j)
    (σ.queue e (held.erase j)) hne fun a ha => ?_).trans ?_
  · have hpos : (σ.plan.touches e j).count a ≠ 0 := (List.count_pos_iff.mpr ha).ne'
    rw [hq, queues, hqueue a, if_neg (by simp [hpos])]
  · refine congrArg (fun q => Except.ok (σ.pending e j, { s with pendingQueues := q }))
      (funext fun a => ?_)
    by_cases ha : a ∈ σ.plan.touches e j
    · rw [if_pos ha]
      rfl
    · rw [if_neg ha, hq, queues, queues, hqueue a, List.count_eq_zero_of_not_mem ha]
      rfl

theorem unlockedOrHead_iff (hs : held.Pairwise (· < ·)) (hlt : ∀ i ∈ held, i < σ.tasks.length)
    (hq : s.pendingQueues = σ.queues e held) (hjN : j < σ.tasks.length)
    (hj : j ∈ held ∧ a ∈ σ.plan.touches e j ∨ ∀ i ∈ held, i < j) :
    s.isAccountUnlockedOrHead a (σ.id j) = true ↔
      ∀ i ∈ held, i < j → a ∉ σ.plan.touches e i := by
  have hhead := head?_filter_iff (p := fun i => decide (a ∈ σ.plan.touches e i)) hs
    (by simpa using hj)
  simp only [decide_eq_false_iff_not] at hhead
  rw [← hhead]
  unfold Executor.isAccountUnlockedOrHead
  rw [hq, queues]
  cases hf : held.filter fun i => decide (a ∈ σ.plan.touches e i) with
  | nil => simp [queue_eq_nil_of_filter hf]
  | cons k tail =>
      obtain ⟨rest, hrest⟩ := queue_of_filter hf
      rw [hrest]
      have hk : k ∈ held := List.mem_of_mem_filter (hf ▸ List.mem_cons_self)
      have hid : σ.id k = σ.id j ↔ k = j :=
        ⟨id_injective (hlt k hk) hjN, fun he => by rw [he]⟩
      simp only [reduceCtorEq, if_false, List.head?_cons, Option.any_some, Option.mem_some_iff,
        forall_eq']
      exact decide_eq_true_iff.trans hid

/-! ### Stores and transfers -/

theorem stored_release : σ.stored (h.release σ.plan e j) e a =
    if a ∈ σ.plan.touches e j then none else σ.stored h e a := by
  unfold stored State.release
  by_cases ha : a ∈ σ.plan.touches e j
  · simp [ha]
  · simp [ha]

theorem stored_run : σ.stored (h.run σ.plan e j) e a =
    if a ∈ σ.accounts j then σ.value (j + 1) a else σ.stored h e a := by
  unfold stored State.run
  rw [cells_plan]
  by_cases ha : a ∈ σ.accounts j
  · simp [ha]
  · simp [ha]

theorem onTheWay_of_store (hl : h.loc a = .store e) : σ.onTheWay h a = 0 := by
  unfold onTheWay
  rw [hl]

theorem isSome_stored (ha : a ∈ σ.accounts j) :
    (σ.stored h e a).isSome = true ↔ h.loc a = .store e := by
  unfold stored
  split
  · rename_i hl
    simp [isSome_value_of_mem _ ha, hl]
  · rename_i hl
    simp [hl]

/-- Of a list with one request for each account. -/
theorem filter_requests {l : List ℕ} {f : ℕ → StateTransferRequest} (hnodup : l.Nodup)
    (hf : ∀ b, (f b).stateTransfer.srcAccountId = b) (a : ℕ) :
    (l.map f : Multiset StateTransferRequest).filter
      (fun r => r.stateTransfer.srcAccountId = a) = if a ∈ l then {f a} else 0 := by
  rw [Multiset.filter_coe]
  induction l with
  | nil => rfl
  | cons b l ih =>
      rw [List.nodup_cons] at hnodup
      have ih := ih hnodup.2
      by_cases hb : b = a
      · subst hb
        rw [if_neg hnodup.1, Multiset.coe_eq_zero] at ih
        rw [List.map_cons, List.filter_cons_of_pos (by simp [hf]), ih, if_pos List.mem_cons_self]
        rfl
      · rw [List.map_cons, List.filter_cons_of_neg (by simpa [hf] using hb), ih]
        simp [Ne.symm hb]

/-- Sending the accounts that are released. -/
theorem Traffic.release {m : Multiset StateTransferRequest} {v : ℕ → AccountState}
    (ht : σ.Traffic h m) (he : σ.plan.target j ≠ e) (hpres : h.Present σ.plan e j)
    (hv : ∀ a ∈ σ.plan.touches e j, σ.value (h.front a) a = some (v a)) :
    σ.Traffic (h.release σ.plan e j) (m + ((σ.plan.touches e j).map fun a =>
      ⟨⟨σ.id j, a, v a⟩, σ.plan.target j⟩ : List StateTransferRequest)) := by
  intro a
  rw [Multiset.filter_add, ht a, filter_requests (nodup_touches he) fun _ => rfl]
  by_cases ha : a ∈ σ.plan.touches e j
  · rw [if_pos ha, onTheWay_of_store (hpres a ha), zero_add]
    simp [onTheWay, State.release, ha, hv a ha]
  · rw [if_neg ha, add_zero]
    simp [onTheWay, State.release, ha]

/-- Consuming the transfers of the accounts that arrived. -/
theorem Traffic.run {m x : Multiset StateTransferRequest} (ht : σ.Traffic h (m + x))
    (hx : ∀ a, x.filter (fun r => r.stateTransfer.srcAccountId = a) =
      if a ∈ σ.accounts j then σ.onTheWay h a else 0) :
    σ.Traffic (h.run σ.plan e j) m := by
  intro a
  have hm := ht a
  rw [Multiset.filter_add, hx a] at hm
  by_cases ha : a ∈ σ.accounts j
  · rw [if_pos ha] at hm
    rw [add_eq_right.mp hm, onTheWay_of_store (e := e)]
    simp [State.run, cells_plan, ha]
  · rw [if_neg ha, add_zero] at hm
    rw [hm]
    simp [onTheWay, State.run, cells_plan, ha]

/-! ### Steps of the contents -/

theorem Contents.hold (hc : σ.Contents h e s) : σ.Contents (h.hold e) e s where
  executorId := hc.executorId
  store := hc.store
  nodup := hc.nodup
  mem_executed id := by
    simp only [State.done_hold]
    exact hc.mem_executed id
  incoming := hc.incoming
  drained := hc.drained

theorem Contents.release {s' : Executor} (hi : State.Inv σ.plan h) (hc : σ.Contents h e s)
    (hj : j ∈ h.held e) (he : σ.plan.target j ≠ e) (hid : s'.executorId = s.executorId)
    (hstore : s'.accountStore =
      fun a => if a ∈ σ.plan.touches e j then none else s.accountStore a)
    (hexec : s'.executed = s.executed) (hin : s'.incomingTransfers = s.incomingTransfers)
    (hdr : s'.drainedIncomingTransfers = s.drainedIncomingTransfers) :
    σ.Contents (h.release σ.plan e j) e s' where
  executorId := hid.trans hc.executorId
  store := by
    rw [hstore, hc.store]
    funext a
    exact stored_release.symm
  nodup := hexec ▸ hc.nodup
  mem_executed id := by
    rw [hexec, hc.mem_executed]
    refine exists_congr fun i => and_congr_right fun _ => and_congr_right fun _ =>
      and_congr_right fun ht => ?_
    rw [State.done_erase (t := h.release σ.plan e j) (hi.sorted e) hj (hi.lt e j hj) rfl rfl]
    refine ⟨Or.inl, fun hd => hd.resolve_right ?_⟩
    rintro ⟨-, rfl⟩
    exact he ht
  incoming := hin ▸ hc.incoming
  drained := hdr ▸ hc.drained

theorem Contents.run {s' : Executor} (hi : State.Inv σ.plan h) (hc : σ.Contents h e s)
    (hj : j ∈ h.held e) (he : σ.plan.target j = e) (hjN : j < σ.tasks.length)
    (hid : s'.executorId = s.executorId)
    (hstore : s'.accountStore =
      fun a => if a ∈ σ.accounts j then σ.value (j + 1) a else s.accountStore a)
    (hexec : s'.executed = s.executed ++ [σ.id j])
    (hin : s'.incomingTransfers = s.incomingTransfers)
    (hdr : s'.drainedIncomingTransfers.Tidy) : σ.Contents (h.run σ.plan e j) e s' where
  executorId := hid.trans hc.executorId
  store := by
    rw [hstore, hc.store]
    funext a
    exact stored_run.symm
  nodup := by
    rw [hexec, List.nodup_append]
    refine ⟨hc.nodup, List.nodup_singleton _, fun id hmem id' hmem' => ?_⟩
    rintro rfl
    rw [List.mem_singleton.mp hmem'] at hmem
    obtain ⟨i, hiN, hidi, -, hd⟩ := (hc.mem_executed _).mp hmem
    obtain rfl := id_injective hiN hjN hidi
    exact hd.2 hj
  mem_executed id := by
    have hdone : ∀ i, (h.run σ.plan e j).Done e i ↔ h.Done e i ∨ e = e ∧ i = j := fun i =>
      State.done_erase (t := h.run σ.plan e j) (hi.sorted e) hj (hi.lt e j hj) rfl rfl
    rw [hexec, List.mem_append, hc.mem_executed, List.mem_singleton]
    simp only [hdone]
    constructor
    · rintro (⟨i, hiN, hidi, ht, hd⟩ | rfl)
      · exact ⟨i, hiN, hidi, ht, Or.inl hd⟩
      · exact ⟨j, hjN, rfl, he, Or.inr ⟨trivial, rfl⟩⟩
    · rintro ⟨i, hiN, rfl, ht, hd | ⟨-, rfl⟩⟩
      · exact Or.inl ⟨i, hiN, rfl, ht, hd⟩
      · exact Or.inr rfl
  incoming := hin ▸ hc.incoming
  drained := hdr

/-! ### What the executor can do -/

/-- An executor as the site `e`, with the transfers that are elsewhere. -/
structure Running (σ : Course cfg) (h : State ℕ ℕ) (e : ℕ)
    (rest : Multiset StateTransferRequest) (s : Executor) : Prop where
  inv : State.Inv σ.plan h
  site : σ.Site h e s
  traffic : σ.Traffic h (s.transfers + rest)

variable {rest : Multiset StateTransferRequest}

theorem lt_of_held (hi : State.Inv σ.plan h) (hj : j ∈ h.held e) : j < σ.tasks.length :=
  lt_of_touches (hi.touch e j hj)

theorem isReadyToExecute_iff (hr : σ.Running h e rest s) (hjN : j < σ.tasks.length)
    (hj : j ∈ h.held e ∨ ∀ i ∈ h.held e, i < j) :
    s.isReadyToExecute (σ.id j) (σ.plan.touches e j) = true ↔
      h.Present σ.plan e j ∧ h.Head σ.plan e j := by
  have hunlocked : ∀ a ∈ σ.plan.touches e j, (s.isAccountUnlockedOrHead a (σ.id j) = true ↔
      ∀ i ∈ h.held e, i < j → a ∉ σ.plan.touches e i) := fun a ha =>
    unlockedOrHead_iff (hr.inv.sorted e) (fun i hi => lt_of_held hr.inv hi) hr.site.queues hjN
      (hj.imp_left fun hmem => ⟨hmem, ha⟩)
  have hstore : ∀ a ∈ σ.plan.touches e j, ((s.accountStore a).isSome = true ↔
      h.loc a = .store e) := fun a ha => by
    rw [hr.site.store]
    exact isSome_stored (Plan.mem_cells_of_mem_touches ha)
  unfold Executor.isReadyToExecute State.Present State.Head
  simp only [List.all_eq_true, Bool.and_eq_true]
  constructor
  · intro hall
    exact ⟨fun a ha => (hstore a ha).mp (hall a ha).1,
      fun i hi hlt a ha => (hunlocked a ha).mp (hall a ha).2 i hi hlt⟩
  · rintro ⟨hpres, hhead⟩ a ha
    exact ⟨(hstore a ha).mpr (hpres a ha),
      (hunlocked a ha).mpr fun i hi hlt => hhead i hi hlt a ha⟩

/-- What can be dealt with out of the store is not waiting for transfers. -/
theorem owner_of_runnable (hi : State.Inv σ.plan h) (hr : h.Runnable σ.plan e j) :
    ∀ a ∈ σ.plan.touches e j, σ.plan.owner j a = e := by
  intro a ha
  obtain ⟨hj, hhead, hpres⟩ := hr
  rw [(hi.clear_of_head hj hhead ha (hpres a ha)).owner (hi.front_le hj ha)]
  exact hi.store a e (hpres a ha)

theorem arrived_of_present (hpres : h.Present σ.plan e j) (he : σ.plan.target j = e)
    (howner : ∀ a ∈ σ.accounts j, σ.plan.owner j a = e) : h.Arrived σ.plan e j := by
  intro a ha
  refine ⟨fun _ => hpres a ?_, fun hne => absurd (howner a ha) hne⟩
  rwa [touches_of_target he]

/-- A transaction that the executor is the target of, with its accounts in the store. -/
theorem execute_eq (digest : Bytes) (hjN : j < σ.tasks.length)
    (hstore : ∀ a ∈ σ.accounts j, s.accountStore a = σ.value j a) :
    ∃ replies, Executor.executeSingleLocalTransaction cfg s digest (σ.task j).tx.txBytes
      (σ.task j).tx.header = .ok { s with
        executed := s.executed ++ [σ.id j]
        accountStore := fun a =>
          if a ∈ σ.accounts j then σ.value (j + 1) a else s.accountStore a
        txClientReply := replies } := by
  have hreq := requiredAccounts_eq (σ := σ) hjN
  obtain ⟨replies, hok⟩ := Executor.executeSingleLocalTransaction_eq (s := s)
    (g := σ.value j) digest (σ.task j).tx.header
    (σ.payload _ (task_mem hjN)) (fun a ha => isSome_value_of_mem j (hreq ▸ ha))
    (fun a ha => hstore a (hreq ▸ ha))
  rw [hreq, ← value_succ j hjN] at hok
  exact ⟨replies, hok⟩

theorem lockAndEnqueueTransaction_eq (hjN : j < σ.tasks.length)
    (hne : σ.plan.touches e j ≠ []) :
    s.lockAndEnqueueTransaction (σ.task j).digest (σ.task j).tx.txBytes (σ.task j).tx.header
      (σ.pending e j).requiredAccounts (σ.locality e j) = .ok { s with
        pendingQueues :=
          Executor.pushBack (σ.pending e j) (σ.plan.touches e j) s.pendingQueues } := by
  have hpayload := σ.payload _ (task_mem hjN)
  have hlocality := locality_eq (σ := σ) e j
  unfold Executor.lockAndEnqueueTransaction
  rw [hpayload]
  by_cases he : σ.plan.target j = e
  · have hreq : (σ.pending e j).requiredAccounts = σ.accounts j := if_pos he
    rw [if_pos he] at hlocality
    rw [hreq, touches_of_target he]
    split at hlocality
    · rw [hlocality]
      simp [pending, he, hlocality, Except.map]
    · rw [hlocality]
      simp [pending, he, hlocality, Except.map]
  · have hreq : (σ.pending e j).requiredAccounts = [] := if_neg he
    rw [if_neg he, if_neg hne] at hlocality
    rw [hreq, hlocality]
    simp [pending, he, hlocality, Except.map]

/-! ### Dealing with one transaction -/

theorem Contents.withQueues (hc : σ.Contents h e s) (q : PendingQueues) :
    σ.Contents h e { s with pendingQueues := q } :=
  ⟨hc.executorId, hc.store, hc.nodup, hc.mem_executed, hc.incoming, hc.drained⟩

/-- Executing a transaction with all its accounts in the store. -/
theorem executeLocal_spec (digest : Bytes) (hi : State.Inv σ.plan h) (hc : σ.Contents h e s)
    (ht : σ.Traffic h (s.transfers + rest)) (hr : h.Runnable σ.plan e j)
    (he : σ.plan.target j = e) :
    ∃ s', Executor.executeSingleLocalTransaction cfg s digest (σ.task j).tx.txBytes
        (σ.task j).tx.header = .ok s' ∧
      σ.Contents (h.run σ.plan e j) e s' ∧
      σ.Traffic (h.run σ.plan e j) (s'.transfers + rest) ∧
      s'.pendingQueues = s.pendingQueues := by
  obtain ⟨hj, hhead, hpres⟩ := hr
  have htouches : σ.plan.touches e j = σ.accounts j := touches_of_target he
  have hloc : ∀ a ∈ σ.accounts j, h.loc a = .store e := fun a ha => hpres a (htouches ▸ ha)
  obtain ⟨replies, hok⟩ := execute_eq (σ := σ) (s := s) digest
    (lt_of_held hi hj) fun a ha => by
      have ha' : a ∈ σ.plan.touches e j := htouches ▸ ha
      rw [hc.store, stored, if_pos (hloc a ha)]
      exact (value_eq_of_clear (hi.clear_of_head hj hhead ha' (hloc a ha))
        (hi.front_le hj ha')).symm
  refine ⟨_, hok, hc.run hi hj he (lt_of_held hi hj) rfl rfl rfl rfl hc.drained, ?_, rfl⟩
  refine Traffic.run (x := 0) (by rw [add_zero]; exact ht) fun a => ?_
  split
  · rename_i ha
    rw [onTheWay_of_store (hloc a ha)]
    rfl
  · rfl

/-- Sending the accounts that another executor needs. -/
theorem migrateOut_spec (hi : State.Inv σ.plan h) (hc : σ.Contents h e s)
    (ht : σ.Traffic h (s.transfers + rest)) (hr : h.Runnable σ.plan e j)
    (he : σ.plan.target j ≠ e) :
    ∃ s', Executor.executeMigrateOut (σ.id j) (σ.plan.target j) (σ.plan.touches e j) s = .ok s' ∧
      σ.Contents (h.release σ.plan e j) e s' ∧
      σ.Traffic (h.release σ.plan e j) (s'.transfers + rest) ∧
      s'.pendingQueues = s.pendingQueues := by
  obtain ⟨hj, hhead, hpres⟩ := hr
  have hv : ∀ a ∈ σ.plan.touches e j, σ.value (h.front a) a =
      some ((σ.value (h.front a) a).getD ⟨0, 0⟩) := fun a ha => by
    obtain ⟨v, hv⟩ := Option.isSome_iff_exists.mp
      (isSome_value_of_mem (h.front a) (Plan.mem_cells_of_mem_touches ha))
    rw [hv]
    rfl
  have hok := Executor.executeMigrateOut_eq (s := s) (σ.id j) (σ.plan.target j)
    (v := fun a => (σ.value (h.front a) a).getD ⟨0, 0⟩) (nodup_touches he) fun a ha => by
      rw [hc.store, stored, if_pos (hpres a ha)]
      exact hv a ha
  refine ⟨_, hok, hc.release hi hj he rfl rfl rfl rfl rfl, ?_, rfl⟩
  have := ht.release he hpres hv
  unfold Executor.transfers at this ⊢
  rw [← Multiset.coe_add]
  convert this using 1
  abel

/-! ### The next transaction of a batch -/

/-- A transaction that has just been taken can be dealt with if it is ready. -/
theorem runnable_hold (hpres : h.Present σ.plan e (h.taken e))
    (hhead : h.Head σ.plan e (h.taken e)) : (h.hold e).Runnable σ.plan e (h.taken e) := by
  refine ⟨State.mem_held_hold.mpr (Or.inr ⟨rfl, rfl⟩), fun i hi hlt => ?_, hpres⟩
  rcases State.mem_held_hold.mp hi with hi | ⟨-, rfl⟩
  · exact hhead i hi hlt
  · exact absurd hlt (lt_irrefl _)

theorem ready_of_runnable_hold
    (hrun : (h.hold e).Runnable σ.plan e (h.taken e)) :
    h.Present σ.plan e (h.taken e) ∧ h.Head σ.plan e (h.taken e) :=
  ⟨hrun.2.2, fun i hi => hrun.2.1 i (State.mem_held_hold.mpr (Or.inl hi))⟩

theorem held_hold_erase (hi : State.Inv σ.plan h) :
    ((h.hold e).held e).erase (h.taken e) = h.held e := by
  have hnot : h.taken e ∉ h.held e := fun hmem => lt_irrefl _ (hi.lt e _ hmem)
  simp only [State.hold, Function.update_self]
  rw [List.erase_append_right _ hnot]
  simp

/-- The next transaction, when the executor deals with it at once, leaves nothing to do: the
    others in the queues do not work on its accounts. -/
theorem idle_of_eager {h' : State ℕ ℕ} (hi : State.Inv σ.plan h) (hidle : h.Idle σ.plan e)
    (hhead : h.Head σ.plan e (h.taken e)) (hheld : h'.held e = h.held e)
    (hrun : ∀ i, h'.Runnable σ.plan e i → (h.hold e).Runnable σ.plan e i ∨
      ∃ a ∈ σ.plan.touches e i, a ∈ σ.plan.touches e (h.taken e)) : h'.Idle σ.plan e := by
  intro i hr
  have hmem : i ∈ h.held e := hheld ▸ hr.1
  have hlt := hi.lt e i hmem
  rcases hrun i hr with hr' | ⟨a, hai, haj⟩
  · rcases State.Runnable.of_hold hr' with hr'' | ⟨-, rfl⟩
    · exact hidle i hr''
    · exact lt_irrefl _ hlt
  · exact hhead i hmem hlt a haj hai

/-- The executor gets through its next transaction, and has nothing left to do. -/
def Next (σ : Course cfg) (h : State ℕ ℕ) (e : ℕ) (rest : Multiset StateTransferRequest)
    (r : Except Panic Executor) : Prop :=
  ∃ s' h', r = .ok s' ∧ State.Steps σ.plan e h h' ∧ h'.taken e = h.taken e + 1 ∧
    σ.Running h' e rest s' ∧ h'.Idle σ.plan e

/-- The next transaction, when it is put into the queues. -/
theorem Running.next_hold (hr : σ.Running h e rest s) (hidle : h.Idle σ.plan e)
    (hne : σ.plan.touches e (h.taken e) ≠ [])
    (hnot : ¬ (h.hold e).Runnable σ.plan e (h.taken e)) :
    σ.Next h e rest (s.lockAndEnqueueTransaction (σ.task (h.taken e)).digest
      (σ.task (h.taken e)).tx.txBytes (σ.task (h.taken e)).tx.header
      (σ.pending e (h.taken e)).requiredAccounts (σ.locality e (h.taken e))) := by
  refine ⟨_, h.hold e, lockAndEnqueueTransaction_eq (lt_of_touches hne) hne,
    .single (.hold hne), by simp [State.hold], ⟨hr.inv.hold hne, ⟨?_, ?_⟩, hr.traffic⟩,
    fun i hi => ?_⟩
  · exact hr.site.toContents.hold.withQueues _
  · show Executor.pushBack _ _ s.pendingQueues = _
    rw [hr.site.queues, queues_append]
    simp [State.hold]
  · rcases State.Runnable.of_hold hi with hi' | ⟨-, rfl⟩
    · exact hidle i hi'
    · exact hnot hi

theorem touches_ne_nil (hjN : j < σ.tasks.length) (he : σ.plan.target j = e) :
    σ.plan.touches e j ≠ [] := by
  rw [touches_of_target he, ← requiredAccounts_eq hjN]
  exact requiredAccounts_ne_nil _

theorem ready_iff (hr : σ.Running h e rest s) (hjN : h.taken e < σ.tasks.length) :
    s.isReadyToExecute (σ.id (h.taken e)) (σ.plan.touches e (h.taken e)) = true ↔
      h.Present σ.plan e (h.taken e) ∧ h.Head σ.plan e (h.taken e) :=
  isReadyToExecute_iff hr hjN (Or.inr fun i hi => hr.inv.lt e i hi)

/-- A transaction that the executor does not own any account of and is not the target of. -/
theorem others_spec (hr : σ.Running h e rest s) (hidle : h.Idle σ.plan e)
    (he : σ.plan.target (h.taken e) ≠ e) (hne : σ.plan.touches e (h.taken e) = []) :
    σ.Next h e rest (.ok s) := by
  refine ⟨s, h.skip e, rfl, .single (.skip hne), by simp [State.skip],
    ⟨hr.inv.skip hne, ⟨⟨hr.site.executorId, hr.site.store, hr.site.nodup, fun id => ?_,
      hr.site.incoming, hr.site.drained⟩, hr.site.queues⟩, hr.traffic⟩, hidle⟩
  rw [hr.site.mem_executed]
  refine exists_congr fun i => and_congr_right fun _ => and_congr_right fun _ =>
    and_congr_right fun ht => ?_
  rw [State.done_skip]
  refine ⟨Or.inl, fun hd => hd.resolve_right ?_⟩
  rintro ⟨-, rfl, -⟩
  exact he ht

section Handle

variable (hr : σ.Running h e rest s) (hidle : h.Idle σ.plan e) (hjN : h.taken e < σ.tasks.length)

include hr hidle hjN

theorem handleLocal_spec (he : σ.plan.target (h.taken e) = e)
    (howner : ∀ a ∈ σ.accounts (h.taken e), σ.plan.owner (h.taken e) a = e)
    (hlocality : σ.locality e (h.taken e) = .local) :
    σ.Next h e rest (s.handleLocalTransaction cfg (σ.task (h.taken e)).digest
      (σ.task (h.taken e)).tx.txBytes (σ.task (h.taken e)).tx.header (σ.accounts (h.taken e))) := by
  have hne := touches_ne_nil hjN he
  have hready := ready_iff hr hjN
  have htouches : σ.plan.touches e (h.taken e) = σ.accounts (h.taken e) := touches_of_target he
  rw [htouches] at hready
  unfold Executor.handleLocalTransaction
  by_cases hnow : h.Present σ.plan e (h.taken e) ∧ h.Head σ.plan e (h.taken e)
  · -- executed at once
    have hrun := runnable_hold hnow.1 hnow.2
    have hinv := hr.inv.hold hne
    have harr := arrived_of_present hrun.2.2 he howner
    have hheld : ((h.hold e).run σ.plan e (h.taken e)).held e = h.held e := by
      simp only [State.run, Function.update_self]
      exact held_hold_erase hr.inv
    obtain ⟨s', hok, hc, ht, hq⟩ := executeLocal_spec (σ.task (h.taken e)).digest hinv
      hr.site.toContents.hold hr.traffic hrun he
    refine ⟨s', (h.hold e).run σ.plan e (h.taken e), (if_pos (hready.mpr hnow)).trans hok,
      .tail (.single (.hold hne)) (.run hrun.1 he hrun.2.1 harr), by simp [State.run, State.hold],
      ⟨hinv.run hrun.1 he hrun.2.1 harr, ⟨hc, ?_⟩, ht⟩, ?_⟩
    · rw [hq, hr.site.queues, hheld]
    · refine idle_of_eager hr.inv hidle hnow.2 hheld fun i hi => ?_
      refine (State.Runnable.of_run hinv hi).imp_right fun hshare => ?_
      obtain ⟨a, ha, haj⟩ := hshare
      refine ⟨a, ha, ?_⟩
      rw [htouches]
      exact haj
  · -- waits for the earlier transactions in the queues
    have hnext := hr.next_hold hidle hne fun hrun => hnow (ready_of_runnable_hold hrun)
    have hreq : (σ.pending e (h.taken e)).requiredAccounts = σ.accounts (h.taken e) := if_pos he
    rw [hreq, hlocality] at hnext
    have hskip : ¬ s.isReadyToExecute (σ.task (h.taken e)).tx.header.id
        (σ.accounts (h.taken e)) = true := fun hb => hnow (hready.mp hb)
    rw [if_neg hskip]
    exact hnext

theorem handleMigrateOut_spec (he : σ.plan.target (h.taken e) ≠ e)
    (hne : σ.plan.touches e (h.taken e) ≠ []) {others : List ℕ}
    (hlocality : σ.locality e (h.taken e) = .migrateOut (σ.plan.touches e (h.taken e)) others
      (σ.plan.target (h.taken e))) :
    σ.Next h e rest (s.handleMigrateOutTransaction (σ.task (h.taken e)).digest
      (σ.task (h.taken e)).tx.txBytes (σ.task (h.taken e)).tx.header
      (σ.plan.touches e (h.taken e)) others (σ.plan.target (h.taken e))) := by
  have hready := ready_iff hr hjN
  unfold Executor.handleMigrateOutTransaction
  by_cases hnow : h.Present σ.plan e (h.taken e) ∧ h.Head σ.plan e (h.taken e)
  · -- sent at once
    have hrun := runnable_hold hnow.1 hnow.2
    have hinv := hr.inv.hold hne
    have hheld : ((h.hold e).release σ.plan e (h.taken e)).held e = h.held e := by
      simp only [State.release, Function.update_self]
      exact held_hold_erase hr.inv
    obtain ⟨s', hok, hc, ht, hq⟩ := migrateOut_spec hinv hr.site.toContents.hold hr.traffic
      hrun he
    refine ⟨s', (h.hold e).release σ.plan e (h.taken e), (if_pos (hready.mpr hnow)).trans ?_,
      .tail (.single (.hold hne)) (.release hrun.1 he hrun.2.1 hrun.2.2),
      by simp [State.release, State.hold],
      ⟨hinv.release hrun.1 he hrun.2.1 hrun.2.2, ⟨hc, ?_⟩, ht⟩, ?_⟩
    · rw [σ.payload _ (task_mem hjN)]
      exact hok
    · rw [hq, hr.site.queues, hheld]
    · exact idle_of_eager hr.inv hidle hnow.2 hheld fun i hi =>
        Or.inl (State.Runnable.of_release hinv hi)
  · -- waits for the earlier transactions in the queues
    have hnext := hr.next_hold hidle hne fun hrun => hnow (ready_of_runnable_hold hrun)
    have hreq : (σ.pending e (h.taken e)).requiredAccounts = [] := if_neg he
    rw [hreq, hlocality] at hnext
    have hskip : ¬ s.isReadyToExecute (σ.task (h.taken e)).tx.header.id
        (σ.plan.touches e (h.taken e)) = true := fun hb => hnow (hready.mp hb)
    rw [if_neg hskip]
    exact hnext

/-- What loop 2 of `execute_batch` does with the next transaction. -/
theorem handleTransaction_spec :
    σ.Next h e rest (s.handleTransactionByLocality cfg (σ.task (h.taken e)).digest
      ((σ.task (h.taken e)).tx, σ.locality e (h.taken e))) := by
  have hlocality := locality_eq (σ := σ) e (h.taken e)
  by_cases he : σ.plan.target (h.taken e) = e
  · rw [if_pos he] at hlocality
    by_cases howner : ∀ a ∈ σ.accounts (h.taken e), σ.plan.owner (h.taken e) a = e
    · rw [if_pos howner] at hlocality
      have hnext := handleLocal_spec hr hidle hjN he howner hlocality
      rw [hlocality]
      exact hnext
    · -- waits for transfers
      rw [if_neg howner] at hlocality
      have hne := touches_ne_nil hjN he
      have hnext := hr.next_hold hidle hne fun hrun =>
        howner fun a ha => owner_of_runnable (hr.inv.hold hne) hrun a (touches_of_target he ▸ ha)
      have hreq : (σ.pending e (h.taken e)).requiredAccounts = σ.accounts (h.taken e) := if_pos he
      rw [hreq, hlocality] at hnext
      rw [hlocality]
      exact hnext
  · rw [if_neg he] at hlocality
    by_cases hne : σ.plan.touches e (h.taken e) = []
    · rw [if_pos hne] at hlocality
      rw [hlocality]
      exact others_spec hr hidle he hne
    · rw [if_neg hne] at hlocality
      have hnext := handleMigrateOut_spec hr hidle hjN he hne hlocality
      rw [hlocality]
      exact hnext

end Handle

/-- Loop 2 of `execute_batch` on the next `n` transactions. -/
theorem handleAll_spec (digest : Bytes) (n : ℕ) (hr : σ.Running h e rest s)
    (hidle : h.Idle σ.plan e) (hle : h.taken e + n ≤ σ.tasks.length)
    (hdigest : ∀ j, h.taken e ≤ j → j < h.taken e + n → (σ.task j).digest = digest) :
    ∃ s' h', Executor.handleAll cfg digest ((List.range' (h.taken e) n).map fun j =>
        ((σ.task j).tx, σ.locality e j)) s = .ok s' ∧
      State.Steps σ.plan e h h' ∧ h'.taken e = h.taken e + n ∧ σ.Running h' e rest s' ∧
      h'.Idle σ.plan e := by
  induction n generalizing h s with
  | zero => exact ⟨s, h, rfl, .refl, rfl, hr, hidle⟩
  | succ n ih =>
      obtain ⟨s₁, h₁, hok, hsteps, htaken, hr₁, hidle₁⟩ :=
        handleTransaction_spec hr hidle (by omega)
      rw [hdigest _ le_rfl (by omega)] at hok
      obtain ⟨s₂, h₂, hok₂, hsteps₂, htaken₂, hr₂, hidle₂⟩ := ih hr₁ hidle₁ (by omega)
        fun j hle hlt => hdigest j (by omega) (by omega)
      refine ⟨s₂, h₂, ?_, hsteps.trans hsteps₂, by omega, hr₂, hidle₂⟩
      rw [List.range'_succ, List.map_cons]
      unfold Executor.handleAll
      rw [hok]
      rw [htaken] at hok₂
      exact hok₂

/-! ### Draining the queues -/

/-- The head of a queue is what the executor can deal with on this account, if anything. -/
theorem getExecutableQueueHead_spec (hr : σ.Running h e rest s) (a : ℕ) :
    (s.getExecutableQueueHead a = .ok none ∧
      ∀ j, h.Runnable σ.plan e j → a ∉ σ.plan.touches e j) ∨
    ∃ j, h.Runnable σ.plan e j ∧ s.getExecutableQueueHead a = .ok (some (σ.pending e j)) := by
  have hqueue := congrFun hr.site.queues a
  -- what can be dealt with is the first that is held back on the account
  have hheads : ∀ j, h.Runnable σ.plan e j → a ∈ σ.plan.touches e j →
      ((h.held e).filter fun i => decide (a ∈ σ.plan.touches e i)) =
        j :: ((h.held e).erase j).filter fun i => decide (a ∈ σ.plan.touches e i) :=
    fun j hj ha => filter_of_head (hr.inv.sorted e) hj.1 (by simpa using ha)
      (by simpa using fun i hi hlt => hj.2.1 i hi hlt a ha)
  unfold Executor.getExecutableQueueHead
  rw [hqueue]
  unfold queues
  cases hf : (h.held e).filter fun i => decide (a ∈ σ.plan.touches e i) with
  | nil =>
      refine Or.inl ⟨?_, fun j hj ha => ?_⟩
      · rw [queue_eq_nil_of_filter hf]
        rfl
      · have := hheads j hj ha
        rw [hf] at this
        cases this
  | cons k tail =>
      have hk := List.mem_filter.mp (hf ▸ List.mem_cons_self : k ∈ (h.held e).filter
        fun i => decide (a ∈ σ.plan.touches e i))
      have hak : a ∈ σ.plan.touches e k := by simpa using hk.2
      have hready := isReadyToExecute_iff hr (lt_of_held hr.inv hk.1) (Or.inl hk.1)
      have hne : σ.plan.touches e k ≠ [] := hr.inv.touch e k hk.1
      -- only the head can be dealt with
      have honly : ∀ j, h.Runnable σ.plan e j → a ∈ σ.plan.touches e j → j = k := by
        intro j hj ha
        have heq := hheads j hj ha
        rw [hf] at heq
        exact (List.cons.inj heq).1.symm
      have hnone : ¬ h.Runnable σ.plan e k → ∀ j, h.Runnable σ.plan e j →
          a ∉ σ.plan.touches e j := fun hnot j hj ha => hnot (honly j hj ha ▸ hj)
      have hlocality := locality_eq (σ := σ) e k
      obtain ⟨later, hlater⟩ := queue_of_filter hf
      rw [hlater, if_neg (List.cons_ne_nil _ _)]
      dsimp only
      by_cases he : σ.plan.target k = e
      · rw [if_pos he] at hlocality
        by_cases howner : ∀ b ∈ σ.accounts k, σ.plan.owner k b = e
        · rw [if_pos howner] at hlocality
          have hreq : (σ.pending e k).requiredAccounts = σ.plan.touches e k := by
            rw [touches_of_target he]
            exact if_pos he
          rw [show (σ.pending e k).locality = .local from hlocality, hreq]
          by_cases hb : h.Present σ.plan e k ∧ h.Head σ.plan e k
          · exact Or.inr ⟨k, ⟨hk.1, hb.2, hb.1⟩, congrArg Except.ok (if_pos (hready.mpr hb))⟩
          · exact Or.inl ⟨congrArg Except.ok (if_neg fun hr' => hb (hready.mp hr')),
              hnone fun hr' => hb ⟨hr'.2.2, hr'.2.1⟩⟩
        · rw [if_neg howner] at hlocality
          rw [show (σ.pending e k).locality = .migrateIn _ from hlocality]
          exact Or.inl ⟨rfl, hnone fun hr' => howner fun b hb =>
            owner_of_runnable hr.inv hr' b (touches_of_target he ▸ hb)⟩
      · rw [if_neg he, if_neg hne] at hlocality
        rw [show (σ.pending e k).locality = .migrateOut _ _ _ from hlocality]
        dsimp only
        by_cases hb : h.Present σ.plan e k ∧ h.Head σ.plan e k
        · exact Or.inr ⟨k, ⟨hk.1, hb.2, hb.1⟩, congrArg Except.ok (if_pos (hready.mpr hb))⟩
        · exact Or.inl ⟨congrArg Except.ok (if_neg fun hr' => hb (hready.mp hr')),
            hnone fun hr' => hb ⟨hr'.2.2, hr'.2.1⟩⟩

theorem mem_extendSet {worklist accounts : List ℕ} {a : ℕ} :
    a ∈ Executor.extendSet worklist accounts ↔ a ∈ worklist ∨ a ∈ accounts := by
  unfold Executor.extendSet
  induction accounts generalizing worklist with
  | nil => simp
  | cons b accounts ih =>
      rw [List.foldl_cons, ih]
      by_cases hb : b ∈ worklist
      · rw [if_pos hb, List.mem_cons]
        refine ⟨Or.imp_right Or.inr, ?_⟩
        rintro (ha | rfl | ha)
        · exact Or.inl ha
        · exact Or.inl hb
        · exact Or.inr ha
      · rw [if_neg hb, List.mem_append, List.mem_singleton, List.mem_cons, or_assoc]

theorem length_extendSet (worklist accounts : List ℕ) :
    (Executor.extendSet worklist accounts).length ≤ worklist.length + accounts.length := by
  unfold Executor.extendSet
  induction accounts generalizing worklist with
  | nil => simp
  | cons b accounts ih =>
      rw [List.foldl_cons]
      refine (ih _).trans ?_
      split
      · simp
      · simp
        omega

theorem length_accounts (j : ℕ) : (σ.accounts j).length ≤ 2 := by
  by_cases hj : j < σ.tasks.length
  · rw [← requiredAccounts_eq hj]
    unfold SmallBankTransaction.requiredAccounts
    split
    · simp
    · simp
  · rw [accounts_of_le (Nat.le_of_not_lt hj)]
    simp

theorem removeEmpty_queues (held accounts : List ℕ) :
    Executor.removeEmpty (σ.queues e held) accounts = σ.queues e held := by
  funext a
  unfold Executor.removeEmpty queues
  by_cases hq : σ.queue e held a = []
  · simp [hq]
  · simp [hq]

/-- What is left of a worklist, counting what dealing with a transaction may add to it. -/
def work (h : State ℕ ℕ) (e : ℕ) (worklist : List ℕ) : ℕ :=
  worklist.length + 2 * (h.held e).length

theorem length_held_erase (hj : j ∈ h.held e) :
    ((h.held e).erase j).length + 1 = (h.held e).length := by
  rw [List.length_erase_of_mem hj]
  have := List.length_pos_of_mem hj
  omega

/-- The executor deals with what it can on some accounts: nothing is left to do but on the
    accounts of the new worklist. -/
def Drained (σ : Course cfg) (h : State ℕ ℕ) (e : ℕ) (rest : Multiset StateTransferRequest)
    (work : ℕ) (r : Except Panic (List ℕ × Executor)) : Prop :=
  ∃ worklist' s' h', r = .ok (worklist', s') ∧ State.Steps σ.plan e h h' ∧ h'.taken = h.taken ∧
    σ.Running h' e rest s' ∧ h'.IdleBut σ.plan e (· ∈ worklist') ∧
    Course.work h' e worklist' ≤ work ∧ (h'.held e).length ≤ (h.held e).length

theorem drainAccount_spec (account : ℕ) {fuel : ℕ} (worklist : List ℕ)
    (hfuel : (h.held e).length < fuel) (hr : σ.Running h e rest s)
    (hidle : h.IdleBut σ.plan e fun a => a ∈ worklist ∨ a = account) :
    σ.Drained h e rest (Course.work h e worklist)
      (Executor.drainAccount cfg account fuel worklist s) := by
  induction fuel generalizing h s worklist with
  | zero => exact absurd hfuel (Nat.not_lt_zero _)
  | succ fuel ih =>
      unfold Executor.drainAccount
      rcases getExecutableQueueHead_spec hr account with ⟨hhead, hnone⟩ | ⟨j, hrun, hhead⟩
      · -- nothing to do on this account
        rw [hhead]
        refine ⟨worklist, s, h, rfl, .refl, rfl, hr, fun j hj => ?_, le_rfl, le_rfl⟩
        obtain ⟨a, ha, hor⟩ := hidle j hj
        rcases hor with hmem | rfl
        · exact ⟨a, ha, hmem⟩
        · exact absurd ha (hnone j hj)
      · rw [hhead]
        have hlen := length_held_erase hrun.1
        have hne : σ.plan.touches e j ≠ [] := hr.inv.touch e j hrun.1
        have hpop := queues_erase (s := s) (hr.inv.sorted e) hrun.1 hrun.2.1 hne hr.site.queues
        have hlocality := locality_eq (σ := σ) e j
        by_cases he : σ.plan.target j = e
        · -- execute it
          have htouches : σ.plan.touches e j = σ.accounts j := touches_of_target he
          have howner : ∀ a ∈ σ.accounts j, σ.plan.owner j a = e := fun a ha =>
            owner_of_runnable hr.inv hrun a (htouches ▸ ha)
          have harr := arrived_of_present hrun.2.2 he howner
          have hreq : (σ.pending e j).requiredAccounts = σ.plan.touches e j := by
            rw [htouches]
            exact if_pos he
          rw [if_pos he, if_pos howner] at hlocality
          obtain ⟨s', hok, hc, ht, hq⟩ := executeLocal_spec
            (s := { s with pendingQueues := σ.queues e ((h.held e).erase j) }) (σ.task j).digest
            hr.inv (hr.site.toContents.withQueues _) hr.traffic hrun he
          have hheld : (h.run σ.plan e j).held e = (h.held e).erase j := by simp [State.run]
          have hr' : σ.Running (h.run σ.plan e j) e rest s' :=
            ⟨hr.inv.run hrun.1 he hrun.2.1 harr, ⟨hc, by rw [hq, hheld]⟩, ht⟩
          obtain ⟨worklist', s'', h'', hok', hsteps, htaken, hr'', hidle'', hwork, hlen'⟩ :=
            ih (Executor.extendSet worklist (σ.plan.touches e j)) (by rw [hheld]; omega)
              hr' fun i hi => by
                rcases State.Runnable.of_run hr.inv hi with hi' | ⟨a, ha, haj⟩
                · obtain ⟨a, ha, hor⟩ := hidle i hi'
                  exact ⟨a, ha, hor.imp_left fun hm => mem_extendSet.mpr (Or.inl hm)⟩
                · refine ⟨a, ha, Or.inl (mem_extendSet.mpr (Or.inr ?_))⟩
                  rw [htouches]
                  exact haj
          refine ⟨worklist', s'', h'', ?_, .head (.run hrun.1 he hrun.2.1 harr) hsteps, htaken,
            hr'', hidle'', hwork.trans ?_, hlen'.trans ?_⟩
          · simp only [bind, Except.bind]
            rw [show (σ.pending e j).locality = .local from hlocality, hreq]
            simp only []
            rw [id_pending, hpop]
            simp only []
            rw [show (σ.pending e j).batchDigest = (σ.task j).digest from rfl,
              show (σ.pending e j).txBytes = (σ.task j).tx.txBytes from rfl,
              show (σ.pending e j).txHeader = (σ.task j).tx.header from rfl, hok]
            simp only []
            rw [hreq]
            exact hok'
          · have := length_extendSet worklist (σ.plan.touches e j)
            have hacc := length_accounts (σ := σ) j
            rw [htouches] at this ⊢
            unfold Course.work
            rw [hheld]
            omega
          · rw [hheld]
            omega
        · -- send its accounts
          rw [if_neg he, if_neg hne] at hlocality
          obtain ⟨s', hok, hc, ht, hq⟩ := migrateOut_spec
            (s := { s with pendingQueues := σ.queues e ((h.held e).erase j) })
            hr.inv (hr.site.toContents.withQueues _) hr.traffic hrun he
          have hheld : (h.release σ.plan e j).held e = (h.held e).erase j := by
            simp [State.release]
          have hr' : σ.Running (h.release σ.plan e j) e rest s' :=
            ⟨hr.inv.release hrun.1 he hrun.2.1 hrun.2.2, ⟨hc, by rw [hq, hheld]⟩, ht⟩
          obtain ⟨worklist', s'', h'', hok', hsteps, htaken, hr'', hidle'', hwork, hlen'⟩ :=
            ih worklist (by rw [hheld]; omega) hr' fun i hi =>
              hidle i (State.Runnable.of_release hr.inv hi)
          refine ⟨worklist', s'', h'', ?_, .head (.release hrun.1 he hrun.2.1 hrun.2.2) hsteps,
            htaken, hr'', hidle'', hwork.trans ?_, hlen'.trans ?_⟩
          · simp only [bind, Except.bind]
            rw [show (σ.pending e j).locality = .migrateOut _ _ _ from hlocality]
            simp only []
            rw [id_pending, hpop]
            simp only []
            rw [id_pending, hok]
            exact hok'
          · unfold Course.work
            rw [hheld]
            omega
          · rw [hheld]
            omega

theorem drainPendingQueues_spec {iter : Iteration} {fuel : ℕ} (i : ℕ) (worklist : List ℕ)
    (hiter : (h.held e).length < iter.fuel) (hfuel : Course.work h e worklist ≤ fuel)
    (hr : σ.Running h e rest s) (hidle : h.IdleBut σ.plan e (· ∈ worklist)) :
    ∃ s' h', Executor.drainPendingQueues cfg iter fuel i worklist s = .ok s' ∧
      State.Steps σ.plan e h h' ∧ h'.taken = h.taken ∧ σ.Running h' e rest s' ∧
      h'.Idle σ.plan e ∧ (h'.held e).length ≤ (h.held e).length := by
  induction fuel generalizing h s i worklist with
  | zero =>
      cases worklist with
      | nil =>
          exact ⟨s, h, rfl, .refl, rfl, hr,
            State.idleBut_false.mp (hidle.mono fun a ha => absurd ha List.not_mem_nil), le_rfl⟩
      | cons account worklist =>
          unfold Course.work at hfuel
          simp at hfuel
  | succ fuel ih =>
      cases worklist with
      | nil =>
          exact ⟨s, h, by unfold Executor.drainPendingQueues; rfl, .refl, rfl, hr,
            State.idleBut_false.mp (hidle.mono fun a ha => absurd ha List.not_mem_nil), le_rfl⟩
      | cons account worklist =>
          unfold Executor.drainPendingQueues
          -- the account that is taken from the worklist
          have hlt : iter.picks i % (worklist.length + 1) < (account :: worklist).length :=
            Nat.mod_lt _ (Nat.succ_pos _)
          have hnext : (account :: worklist).getD (iter.picks i % (worklist.length + 1)) account ∈
              account :: worklist := by
            rw [List.getD_eq_getElem _ _ hlt]
            exact List.getElem_mem hlt
          generalize hn : (account :: worklist).getD (iter.picks i % (worklist.length + 1)) account
            = next at hnext
          have hlen : ((account :: worklist).erase next).length = worklist.length := by
            rw [List.length_erase_of_mem hnext]
            rfl
          obtain ⟨worklist', s', h', hok, hsteps, htaken, hr', hidle', hwork, hheld⟩ :=
            drainAccount_spec next ((account :: worklist).erase next)
              hiter hr (hidle.mono fun a ha => by
                by_cases hane : a = next
                · exact Or.inr hane
                · exact Or.inl ((List.mem_erase_of_ne hane).mpr ha))
          have hsame : { s' with pendingQueues := Executor.removeEmpty s'.pendingQueues [next] } =
              s' := by
            rw [hr'.site.queues, removeEmpty_queues, ← hr'.site.queues]
          have hbound : Course.work h' e worklist' ≤ fuel := by
            unfold Course.work at hwork hfuel ⊢
            rw [hlen] at hwork
            rw [List.length_cons] at hfuel
            omega
          obtain ⟨s'', h'', hok', hsteps', htaken', hr'', hidle'', hheld'⟩ :=
            ih (i + 1) worklist' (by omega) hbound hr' hidle'
          refine ⟨s'', h'', ?_, hsteps.trans hsteps', htaken'.trans htaken, hr'', hidle'',
            hheld'.trans hheld⟩
          simp only [bind, Except.bind, hok]
          rw [hsame]
          exact hok'

/-! ### Received transfers -/

theorem mem_onTheWay {r : StateTransferRequest} : r ∈ σ.onTheWay h a ↔
    ∃ i v, h.loc a = .moving i ∧ σ.value (h.front a) a = some v ∧
      r = ⟨⟨σ.id i, a, v⟩, σ.plan.target i⟩ := by
  unfold onTheWay
  cases hl : h.loc a with
  | store e => simp
  | moving i =>
      cases hv : σ.value (h.front a) a with
      | none => simp
      | some v => simp

theorem card_onTheWay_le (a : ℕ) : (σ.onTheWay h a).card ≤ 1 := by
  unfold onTheWay
  split
  · simp
  · simp

/-- The transfers `l` for transaction `k` that have arrived at its target. -/
structure Received (σ : Course cfg) (h : State ℕ ℕ) (e k : ℕ) (l : List StateTransfer) : Prop where
  le : ∀ a, (l.map fun t => (⟨t, e⟩ : StateTransferRequest) : Multiset _).filter
    (fun r => r.stateTransfer.srcAccountId = a) ≤ σ.onTheWay h a
  nodup : (l.map StateTransfer.srcAccountId).Nodup
  moving : ∀ t ∈ l, t.srcAccountId ∈ σ.accounts k ∧ σ.plan.owner k t.srcAccountId ≠ e ∧
    h.loc t.srcAccountId = .moving k ∧
    σ.value (h.front t.srcAccountId) t.srcAccountId = some t.srcAccountState

theorem transfers_get (he : s.executorId = e) (id : TxID) :
    s.transfers = ({ s with drainedIncomingTransfers := s.drainedIncomingTransfers.erase id } :
      Executor).transfers + ((s.drainedIncomingTransfers.get id).map
        fun t => (⟨t, e⟩ : StateTransferRequest) : List _) := by
  subst he
  unfold Executor.transfers
  rw [TransferMap.all_erase s.drainedIncomingTransfers id]
  simp only [Multiset.map_add, Multiset.map_coe]
  abel

theorem transfers_send {r : StateTransferRequest} {requests : List StateTransferRequest}
    (hq : s.txSendState = r :: requests) :
    s.transfers = ({ s with txSendState := requests } : Executor).transfers + {r} := by
  unfold Executor.transfers
  rw [hq, ← Multiset.cons_coe, ← Multiset.singleton_add]
  simp only []
  abel

theorem transfers_push (s : Executor) (t : StateTransfer) :
    ({ s with incomingTransfers := s.incomingTransfers.push t } : Executor).transfers =
      s.transfers + {⟨t, s.executorId⟩} := by
  unfold Executor.transfers
  rw [TransferMap.all_push]
  simp only [Multiset.map_add, Multiset.map_singleton]
  abel

theorem Running.received (hr : σ.Running h e rest s) {id : TxID}
    (hne : s.drainedIncomingTransfers.get id ≠ []) :
    ∃ k < σ.tasks.length, σ.id k = id ∧ σ.plan.target k = e ∧
      σ.Received h e k (s.drainedIncomingTransfers.get id) := by
  have hle : ∀ a, ((s.drainedIncomingTransfers.get id).map
      fun t => (⟨t, e⟩ : StateTransferRequest) : Multiset _).filter
        (fun r => r.stateTransfer.srcAccountId = a) ≤ σ.onTheWay h a := by
    intro a
    rw [← hr.traffic a, transfers_get hr.site.executorId id]
    refine Multiset.filter_le_filter _ ?_
    rw [add_right_comm]
    exact Multiset.le_add_left _ _
  -- each transfer is what an account is on its way with
  have hway : ∀ t ∈ s.drainedIncomingTransfers.get id, ∃ i, i < σ.tasks.length ∧ σ.id i = id ∧
      σ.plan.target i = e ∧ t.srcAccountId ∈ σ.accounts i ∧ σ.plan.owner i t.srcAccountId ≠ e ∧
      h.loc t.srcAccountId = .moving i ∧
      σ.value (h.front t.srcAccountId) t.srcAccountId = some t.srcAccountState := by
    intro t ht
    have hmem : (⟨t, e⟩ : StateTransferRequest) ∈ σ.onTheWay h t.srcAccountId := by
      refine Multiset.mem_of_le (hle _) (Multiset.mem_filter.mpr ⟨?_, rfl⟩)
      exact Multiset.mem_coe.mpr (List.mem_map_of_mem ht)
    obtain ⟨i, v, hl, hv, heq⟩ := mem_onTheWay.mp hmem
    obtain ⟨ht', rfl⟩ := StateTransferRequest.mk.inj heq
    obtain ⟨hcell, -, -, hne⟩ := hr.inv.moving _ i hl
    refine ⟨i, lt_of_mem hcell, ?_, rfl, hcell, hne, hl, ?_⟩
    · rw [← hr.site.drained.txId id t ht, ht']
    · rw [hv, ht']
  obtain ⟨first, hfirst⟩ := List.exists_mem_of_ne_nil _ hne
  obtain ⟨k, hkN, hid, htarget, -⟩ := hway first hfirst
  refine ⟨k, hkN, hid, htarget, hle, ?_, fun t ht => ?_⟩
  · rw [List.nodup_iff_count_le_one]
    intro a
    refine le_trans (le_of_eq ?_) ((Multiset.card_le_card (hle a)).trans (card_onTheWay_le a))
    rw [Multiset.filter_coe, Multiset.coe_card, List.filter_map, List.length_map,
      List.count_eq_countP, List.countP_map, List.countP_eq_length_filter]
    congr 1
  · obtain ⟨i, hiN, hidi, -, hrest⟩ := hway t ht
    obtain rfl := id_injective hiN hkN (hidi.trans hid.symm)
    exact hrest

/-- Everything that the transaction waits for has been received, and it is at the head of its
    queues. -/
def Ready (σ : Course cfg) (h : State ℕ ℕ) (e : ℕ) (drained : TransferMap) (id : TxID) : Prop :=
  ∃ k ∈ h.held e, σ.id k = id ∧ σ.plan.target k = e ∧ h.Head σ.plan e k ∧
    (∀ a ∈ σ.accounts k, σ.plan.owner k a = e → h.loc a = .store e) ∧
    ∀ a ∈ σ.accounts k, σ.plan.owner k a ≠ e →
      a ∈ (drained.get id).map StateTransfer.srcAccountId

theorem isAtAllHeads_spec (hr : σ.Running h e rest s) {k : ℕ} (hk : k ∈ h.held e)
    (accounts : List ℕ) (hsub : ∀ a ∈ accounts, a ∈ σ.plan.touches e k) :
    ∃ b, s.isAtAllHeads (σ.id k) accounts = .ok b ∧
      (b = true ↔ ∀ i ∈ h.held e, i < k → ∀ a ∈ accounts, a ∉ σ.plan.touches e i) := by
  induction accounts with
  | nil => exact ⟨true, rfl, by simp⟩
  | cons a accounts ih =>
      rw [List.forall_mem_cons] at hsub
      obtain ⟨b, hok, hb⟩ := ih hsub.2
      have hunlocked := unlockedOrHead_iff (hr.inv.sorted e) (fun i hi => lt_of_held hr.inv hi)
        hr.site.queues (lt_of_held hr.inv hk) (Or.inl ⟨hk, hsub.1⟩)
      -- there is a queue, as the transaction is in it
      have hne : σ.queue e (h.held e) a ≠ [] :=
        List.ne_nil_of_mem (mem_queue.mpr ⟨k, hk, hsub.1, rfl⟩)
      have hhead : ∃ c, s.isEnqueuedAtHead a (σ.id k) = .ok c ∧
          (c = true ↔ s.isAccountUnlockedOrHead a (σ.id k) = true) := by
        unfold Executor.isEnqueuedAtHead Executor.isAccountUnlockedOrHead
        rw [hr.site.queues, queues, if_neg hne]
        cases hq : σ.queue e (h.held e) a with
        | nil => exact absurd hq hne
        | cons p tail => exact ⟨_, rfl, Iff.rfl⟩
      obtain ⟨c, hcok, hc⟩ := hhead
      unfold Executor.isAtAllHeads
      rw [hcok]
      simp only [bind, Except.bind]
      by_cases hcb : c = true
      · rw [if_pos hcb]
        refine ⟨b, hok, hb.trans ?_⟩
        have hfirst := hunlocked.mp (hc.mp hcb)
        constructor
        · intro hall i hi hlt a' ha'
          rcases List.mem_cons.mp ha' with rfl | ha'
          · exact hfirst i hi hlt
          · exact hall i hi hlt a' ha'
        · exact fun hall i hi hlt a' ha' => hall i hi hlt a' (List.mem_cons_of_mem _ ha')
      · rw [if_neg hcb]
        refine ⟨false, rfl, by simp, fun hall => absurd (hc.mpr (hunlocked.mpr ?_)) hcb⟩
        exact fun i hi hlt => hall i hi hlt a List.mem_cons_self

/-- The transfers are those that a transaction at the head waits for, and its other accounts
    are in the store: it is executed on the states received. -/
theorem executeMigrateIn_spec {k : ℕ} {l : List StateTransfer} (digest : Bytes)
    (hr : σ.Running h e rest s) (hk : k ∈ h.held e) (he : σ.plan.target k = e)
    (hhead : h.Head σ.plan e k) (hid : s.drainedIncomingTransfers.get (σ.id k) = l)
    (hrec : σ.Received h e k l) (harr : h.Arrived σ.plan e k)
    (hall : ∀ a ∈ σ.accounts k, σ.plan.owner k a ≠ e → a ∈ l.map StateTransfer.srcAccountId) :
    ∃ s', Executor.executeSingleLocalTransaction cfg { s with
        drainedIncomingTransfers := s.drainedIncomingTransfers.erase (σ.id k)
        pendingQueues := σ.queues e ((h.held e).erase k)
        accountStore := l.foldl (fun (store : AccountStore) t =>
          Function.update store t.srcAccountId (some t.srcAccountState)) s.accountStore }
        digest (σ.task k).tx.txBytes (σ.task k).tx.header = .ok s' ∧
      σ.Running (h.run σ.plan e k) e rest s' ∧
      s'.drainedIncomingTransfers = s.drainedIncomingTransfers.erase (σ.id k) := by
  have hkN := lt_of_held hr.inv hk
  let store : AccountStore := l.foldl (fun (store : AccountStore) t =>
    Function.update store t.srcAccountId (some t.srcAccountState)) s.accountStore
  have hfold := fun a => Executor.foldl_update_eq s.accountStore hrec.nodup a
  have hnotin : ∀ a, a ∉ l.map StateTransfer.srcAccountId → store a = s.accountStore a :=
    fun a hna => (hfold a).2 fun t ht hta => hna (hta ▸ List.mem_map_of_mem ht)
  have hclear : ∀ a ∈ σ.accounts k, σ.value k a = σ.value (h.front a) a := fun a ha =>
    value_eq_of_clear (hr.inv.clear_of_arrived hk hhead he harr ha)
      (hr.inv.front_le hk (Plan.mem_touches.mpr ⟨ha, Or.inl he⟩))
  have hstore : ∀ a ∈ σ.accounts k, store a = σ.value k a := by
    intro a ha
    rw [hclear a ha]
    by_cases ho : σ.plan.owner k a = e
    · have hl := (harr a ha).1 ho
      rw [hnotin a fun hmem => ?_, hr.site.store, stored, if_pos hl]
      obtain ⟨t, ht, rfl⟩ := List.mem_map.mp hmem
      exact (hrec.moving t ht).2.1 ho
    · obtain ⟨t, ht, hta⟩ := List.mem_map.mp (hall a ha ho)
      rw [show store a = _ from (hfold a).1 t ht hta, ← hta]
      exact (hrec.moving t ht).2.2.2.symm
  have hothers : (fun a => if a ∈ σ.accounts k then σ.value (k + 1) a else store a) =
      fun a => if a ∈ σ.accounts k then σ.value (k + 1) a else s.accountStore a := by
    funext a
    by_cases ha : a ∈ σ.accounts k
    · rw [if_pos ha, if_pos ha]
    · rw [if_neg ha, if_neg ha]
      refine hnotin a fun hmem => ha ?_
      obtain ⟨t, ht, rfl⟩ := List.mem_map.mp hmem
      exact (hrec.moving t ht).1
  obtain ⟨replies, hok⟩ := execute_eq (σ := σ) (s := { s with
    drainedIncomingTransfers := s.drainedIncomingTransfers.erase (σ.id k)
    pendingQueues := σ.queues e ((h.held e).erase k)
    accountStore := store }) digest hkN hstore
  refine ⟨_, hok, ⟨hr.inv.run hk he hhead harr, ⟨?_, by simp [State.run]⟩, ?_⟩, rfl⟩
  · exact hr.site.toContents.run hr.inv hk he hkN rfl hothers rfl rfl (hr.site.drained.erase _)
  · have htransfers := transfers_get hr.site.executorId (σ.id k)
    rw [hid] at htransfers
    refine Traffic.run (x := ((l.map fun t => (⟨t, e⟩ : StateTransferRequest) : List _) :
      Multiset StateTransferRequest)) ?_ fun a => ?_
    · have ht := hr.traffic
      rw [htransfers, add_right_comm] at ht
      exact ht
    · have hle := hrec.le a
      split
      · rename_i ha
        by_cases ho : σ.plan.owner k a = e
        · rw [onTheWay_of_store ((harr a ha).1 ho)] at hle ⊢
          exact Multiset.le_zero.mp hle
        · obtain ⟨t, ht, hta⟩ := List.mem_map.mp (hall a ha ho)
          refine Multiset.eq_of_le_of_card_le hle ((card_onTheWay_le a).trans ?_)
          refine Multiset.card_pos_iff_exists_mem.mpr ⟨⟨t, e⟩, Multiset.mem_filter.mpr ⟨?_, hta⟩⟩
          exact Multiset.mem_coe.mpr (List.mem_map_of_mem ht)
      · rename_i ha
        refine Multiset.filter_eq_nil.mpr fun r hmem hra => ha ?_
        obtain ⟨t, ht, rfl⟩ := List.mem_map.mp (Multiset.mem_coe.mp hmem)
        exact hra ▸ (hrec.moving t ht).1

/-- What a transaction waits for, as the executor determines it. -/
def missing (σ : Course cfg) (e k : ℕ) : List (ℕ × ℕ) :=
  ((σ.accounts k).filter fun a => σ.plan.owner k a ≠ e).map fun a => (a, σ.plan.owner k a)

theorem mem_missing {k a : ℕ} :
    a ∈ (σ.missing e k).map Prod.fst ↔ a ∈ σ.accounts k ∧ σ.plan.owner k a ≠ e := by
  simp [missing]

/-- All have been received exactly if there are as many as it waits for. -/
theorem Received.length_eq_iff {k : ℕ} {l : List StateTransfer} (hrec : σ.Received h e k l)
    (he : σ.plan.target k = e) :
    l.length = (σ.missing e k).length ↔ ∀ a ∈ σ.accounts k, σ.plan.owner k a ≠ e →
      a ∈ l.map StateTransfer.srcAccountId := by
  have hnodup : ((σ.missing e k).map Prod.fst).Nodup := by
    have := nodup_filter_owner (σ := σ) (j := k) (p := fun a => σ.plan.owner k a ≠ e)
      fun a _ ho => by simp [ho, he]
    simpa [missing, Function.comp_def] using this
  have hsub : l.map StateTransfer.srcAccountId ⊆ (σ.missing e k).map Prod.fst := by
    intro a ha
    obtain ⟨t, ht, rfl⟩ := List.mem_map.mp ha
    obtain ⟨hmem, hne, -⟩ := hrec.moving t ht
    exact mem_missing.mpr ⟨hmem, hne⟩
  have hperm := List.subperm_of_subset hrec.nodup hsub
  constructor
  · intro hlen a ha ho
    refine (hperm.perm_of_length_le ?_).mem_iff.mpr (mem_missing.mpr ⟨ha, ho⟩)
    simp [hlen]
  · intro hall
    have hperm' := List.subperm_of_subset hnodup fun a ha => hall a (mem_missing.mp ha).1
      (mem_missing.mp ha).2
    have h₁ := hperm.length_le
    have h₂ := hperm'.length_le
    rw [List.length_map, List.length_map] at h₁ h₂
    omega

/-- One iteration of the loop of `process_incoming_transfers`. -/
theorem processTransfers_spec {id : TxID} {unlocked : List ℕ} (hr : σ.Running h e rest s)
    (hne : s.drainedIncomingTransfers.get id ≠ [])
    (hidle : h.IdleBut σ.plan e (· ∈ unlocked)) :
    (Executor.processTransfers cfg id unlocked s = .ok (unlocked, s) ∧
      ¬ σ.Ready h e s.drainedIncomingTransfers id) ∨
    ∃ k ∈ h.held e, ∃ s', Executor.processTransfers cfg id unlocked s =
        .ok (unlocked ++ σ.accounts k, s') ∧
      State.Step σ.plan e h (h.run σ.plan e k) ∧ σ.Running (h.run σ.plan e k) e rest s' ∧
      (h.run σ.plan e k).IdleBut σ.plan e (· ∈ unlocked ++ σ.accounts k) ∧
      s'.drainedIncomingTransfers = s.drainedIncomingTransfers.erase id := by
  obtain ⟨k, hkN, rfl, he, hrec⟩ := hr.received hne
  have htouches : σ.plan.touches e k = σ.accounts k := touches_of_target he
  -- the transaction of the id is unique
  have hready : σ.Ready h e s.drainedIncomingTransfers (σ.id k) → k ∈ h.held e ∧
      h.Head σ.plan e k ∧ (∀ a ∈ σ.accounts k, σ.plan.owner k a = e → h.loc a = .store e) ∧
      ∀ a ∈ σ.accounts k, σ.plan.owner k a ≠ e →
        a ∈ (s.drainedIncomingTransfers.get (σ.id k)).map StateTransfer.srcAccountId := by
    rintro ⟨j, hj, hid, -, hhead, hstore, hall⟩
    obtain rfl := id_injective (lt_of_held hr.inv hj) hkN hid
    exact ⟨hj, hhead, hstore, hall⟩
  unfold Executor.processTransfers
  generalize hl : s.drainedIncomingTransfers.get (σ.id k) = l at hne hrec hready ⊢
  cases l with
  | nil => exact absurd rfl hne
  | cons first tail =>
      obtain ⟨hcell, howner, -, -⟩ := hrec.moving first List.mem_cons_self
      have hfirst : first.srcAccountId ∈ σ.plan.touches e k := htouches ▸ hcell
      have hqueue := congrFun hr.site.queues first.srcAccountId
      unfold queues at hqueue
      dsimp only
      cases hf : (h.held e).filter fun i => decide (first.srcAccountId ∈ σ.plan.touches e i) with
      | nil =>
          -- not in the queue yet
          rw [queue_eq_nil_of_filter hf, if_pos rfl] at hqueue
          rw [hqueue]
          refine Or.inl ⟨rfl, fun hrdy => ?_⟩
          have := List.filter_eq_nil_iff.mp hf k (hready hrdy).1
          simp [hfirst] at this
      | cons i others =>
          have hi := List.mem_filter.mp (hf ▸ List.mem_cons_self : i ∈ (h.held e).filter
            fun i => decide (first.srcAccountId ∈ σ.plan.touches e i))
          obtain ⟨later, hlater⟩ := queue_of_filter hf
          rw [hlater, if_neg (List.cons_ne_nil _ _)] at hqueue
          rw [hqueue]
          dsimp only
          by_cases hik : i = k
          · subst hik
            have hlocality := locality_eq (σ := σ) e i
            rw [if_pos he, if_neg fun hall => howner (hall _ hcell)] at hlocality
            have hreq : (σ.pending e i).requiredAccounts = σ.accounts i := if_pos he
            rw [if_neg (by simp [id_pending]),
              show (σ.pending e i).locality = .migrateIn (σ.missing e i) from hlocality, hreq]
            dsimp only
            by_cases hlen : tail.length + 1 = (σ.missing e i).length
            · have hall := (hrec.length_eq_iff he).mp hlen
              rw [if_neg (by simpa using hlen)]
              obtain ⟨b, hok, hb⟩ := isAtAllHeads_spec hr hi.1 (σ.accounts i)
                fun a ha => htouches ▸ ha
              rw [hok]
              simp only [bind, Except.bind]
              by_cases hbt : b = true
              · have hhead : h.Head σ.plan e i := fun j hj hlt a ha =>
                  hb.mp hbt j hj hlt a (htouches ▸ ha)
                have hin : ((σ.accounts i).all fun a =>
                    ((σ.missing e i).map Prod.fst).contains a || (s.accountStore a).isSome) = true ↔
                    ∀ a ∈ σ.accounts i, σ.plan.owner i a = e → h.loc a = .store e := by
                  rw [List.all_eq_true]
                  refine forall₂_congr fun a ha => ?_
                  rw [Bool.or_eq_true, List.contains_iff_mem, mem_missing, hr.site.store,
                    isSome_stored ha]
                  by_cases ho : σ.plan.owner i a = e
                  · simp [ho]
                  · simp [ho, ha]
                subst hbt
                simp only [Bool.not_true, Bool.false_eq_true, if_false]
                by_cases hst : ∀ a ∈ σ.accounts i, σ.plan.owner i a = e → h.loc a = .store e
                · -- executed
                  have harr : h.Arrived σ.plan e i := fun a ha =>
                    ⟨hst a ha, fun ho => by
                      obtain ⟨t, ht, rfl⟩ := List.mem_map.mp (hall a ha ho)
                      exact (hrec.moving t ht).2.2.1⟩
                  obtain ⟨s', hexec, hr', hdr⟩ := executeMigrateIn_spec
                    (σ.task i).digest hr hi.1 he hhead hl hrec harr hall
                  have hpop := queues_erase (s := { s with
                    drainedIncomingTransfers := s.drainedIncomingTransfers.erase (σ.id i) })
                    (hr.inv.sorted e) hi.1 hhead (hr.inv.touch e i hi.1) hr.site.queues
                  rw [htouches] at hpop
                  refine Or.inr ⟨i, hi.1, s', ?_, .run hi.1 he hhead harr, hr', fun j hj => ?_, hdr⟩
                  · rw [if_pos (hin.mpr hst), hpop]
                    simp only []
                    rw [show (σ.pending e i).batchDigest = (σ.task i).digest from rfl,
                      show (σ.pending e i).txBytes = (σ.task i).tx.txBytes from rfl,
                      show (σ.pending e i).txHeader = (σ.task i).tx.header from rfl, hexec, hreq]
                    rfl
                  · rcases State.Runnable.of_run hr.inv hj with hj' | ⟨a, ha, hai⟩
                    · obtain ⟨a, ha, hmem⟩ := hidle j hj'
                      exact ⟨a, ha, List.mem_append_left _ hmem⟩
                    · exact ⟨a, ha, List.mem_append_right _ hai⟩
                · exact Or.inl ⟨by rw [if_neg fun hb' => hst (hin.mp hb')]; rfl,
                    fun hrdy => hst (hready hrdy).2.2.1⟩
              · rw [Bool.not_eq_true] at hbt
                subst hbt
                refine Or.inl ⟨rfl, fun hrdy => ?_⟩
                have := hb.mpr fun j hj hlt a ha =>
                  (hready hrdy).2.1 j hj hlt a (htouches ▸ ha)
                cases this
            · rw [if_pos (by simpa using hlen)]
              exact Or.inl ⟨rfl, fun hrdy => hlen ((hrec.length_eq_iff he).mpr (hready hrdy).2.2.2)⟩
          · -- another transaction is at the head
            have hid : (σ.pending e i).txHeader.id ≠ σ.id k := fun heq =>
              hik (id_injective (lt_of_held hr.inv hi.1) hkN heq)
            rw [if_pos hid]
            refine Or.inl ⟨rfl, fun hrdy => hik ?_⟩
            obtain ⟨hk, hhead, -⟩ := hready hrdy
            have := filter_of_head (p := fun i => decide (first.srcAccountId ∈ σ.plan.touches e i))
              (hr.inv.sorted e) hk (by simpa using hfirst)
              fun m hm hlt => by simpa using hhead m hm hlt _ hfirst
            rw [hf] at this
            exact (List.cons.inj this).1

/-- The loop of `process_incoming_transfers`: if it executes nothing then nothing is ready. -/
theorem processAllTransfers_spec (ids : List TxID) (unlocked : List ℕ)
    (hr : σ.Running h e rest s) (hnodup : ids.Nodup)
    (hne : ∀ id ∈ ids, s.drainedIncomingTransfers.get id ≠ [])
    (hidle : h.IdleBut σ.plan e (· ∈ unlocked)) :
    ∃ unlocked' s' h', Executor.processAllTransfers cfg ids unlocked s = .ok (unlocked', s') ∧
      State.Steps σ.plan e h h' ∧ h'.taken = h.taken ∧ σ.Running h' e rest s' ∧
      h'.IdleBut σ.plan e (· ∈ unlocked') ∧
      Course.work h' e unlocked' ≤ Course.work h e unlocked ∧
      ((h'.held e).length < (h.held e).length ∨ unlocked' = unlocked ∧ s' = s ∧ h' = h ∧
        ∀ id ∈ ids, ¬ σ.Ready h e s.drainedIncomingTransfers id) := by
  induction ids generalizing h s unlocked with
  | nil =>
      exact ⟨unlocked, s, h, rfl, .refl, rfl, hr, hidle, le_rfl,
        Or.inr ⟨rfl, rfl, rfl, fun _ hid => absurd hid List.not_mem_nil⟩⟩
  | cons id ids ih =>
      rw [List.nodup_cons] at hnodup
      rw [List.forall_mem_cons] at hne
      unfold Executor.processAllTransfers
      rcases processTransfers_spec hr hne.1 hidle with
        ⟨hok, hnot⟩ | ⟨k, hk, s₁, hok, hstep, hr₁, hidle₁, hdr⟩
      · rw [hok]
        obtain ⟨unlocked', s', h', hok', hsteps, htaken, hr', hidle', hwork, hor⟩ :=
          ih unlocked hr hnodup.2 hne.2 hidle
        refine ⟨unlocked', s', h', hok', hsteps, htaken, hr', hidle', hwork,
          hor.imp_right fun hsame => ?_⟩
        obtain ⟨hu, hs, hh, hall⟩ := hsame
        refine ⟨hu, hs, hh, ?_⟩
        rw [List.forall_mem_cons]
        exact ⟨hnot, hall⟩
      · have hlen := length_held_erase hk
        have hheld : (h.run σ.plan e k).held e = (h.held e).erase k := by simp [State.run]
        have hne₁ : ∀ id' ∈ ids, s₁.drainedIncomingTransfers.get id' ≠ [] := by
          intro id' hid'
          have hdiff : id' ≠ id := fun heq => hnodup.1 (heq ▸ hid')
          rw [hdr, TransferMap.get_erase, if_neg hdiff]
          exact hne.2 id' hid'
        obtain ⟨unlocked', s', h', hok', hsteps, htaken, hr', hidle', hwork, hor⟩ :=
          ih (unlocked ++ σ.accounts k) hr₁ hnodup.2 hne₁ hidle₁
        rw [hok]
        refine ⟨unlocked', s', h', hok', .head hstep hsteps, htaken, hr', hidle',
          hwork.trans ?_, Or.inl ?_⟩
        · have := length_accounts (σ := σ) k
          unfold Course.work
          rw [hheld, List.length_append]
          omega
        · rw [hheld] at hor
          rcases hor with hlt | ⟨-, -, rfl, -⟩
          · omega
          · rw [hheld]
            omega

theorem length_held_le (hi : State.Inv σ.plan h) : (h.held e).length ≤ σ.tasks.length := by
  have hnodup : (h.held e).Nodup := (hi.sorted e).imp ne_of_lt
  have hsub : h.held e ⊆ List.range σ.tasks.length := fun j hj =>
    List.mem_range.mpr (lt_of_held hi hj)
  simpa using (List.subperm_of_subset hnodup hsub).length_le

/-- Moving what has arrived into the local buffer. -/
theorem Running.take (hr : σ.Running h e rest s) : σ.Running h e rest { s with
    incomingTransfers := ∅
    drainedIncomingTransfers := s.drainedIncomingTransfers.extend s.incomingTransfers } where
  inv := hr.inv
  site := ⟨⟨hr.site.executorId, hr.site.store, hr.site.nodup, hr.site.mem_executed,
    TransferMap.tidy_empty, hr.site.drained.extend hr.site.incoming⟩, hr.site.queues⟩
  traffic := by
    have ht := hr.traffic
    unfold Executor.transfers at ht ⊢
    rw [TransferMap.all_extend, TransferMap.all_empty, zero_add, add_comm (TransferMap.all _)]
    exact ht

/-- `process_incoming_transfers` does not panic, and leaves nothing to do. If it executes
    nothing then nothing that has been received is ready. -/
theorem processIncomingTransfers_spec {iter : Iteration} (hfuel : 2 * σ.tasks.length < iter.fuel)
    (hr : σ.Running h e rest s) (hidle : h.Idle σ.plan e) :
    ∃ s' h', Executor.processIncomingTransfers cfg iter s = .ok s' ∧
      State.Steps σ.plan e h h' ∧ h'.taken = h.taken ∧ σ.Running h' e rest s' ∧
      h'.Idle σ.plan e ∧
      ((h'.held e).length < (h.held e).length ∨
        ∀ id ∈ s.drainedIncomingTransfers.extend s.incomingTransfers,
          ¬ σ.Ready h e (s.drainedIncomingTransfers.extend s.incomingTransfers) id) := by
  have hr₀ := hr.take
  have hlen := length_held_le (e := e) hr.inv
  obtain ⟨unlocked, s₁, h₁, hok, hsteps, htaken, hr₁, hidle₁, hwork, hor⟩ :=
    processAllTransfers_spec
      (iter.transfers (s.drainedIncomingTransfers.extend s.incomingTransfers).keys) [] hr₀
      ((iter.transfers_perm _).nodup_iff.mpr (AList.keys_nodup _))
      (fun id hid => hr₀.site.drained.ne_nil id
        (AList.mem_keys.mpr ((iter.transfers_perm _).mem_iff.mp hid)))
      ((State.idleBut_false.mpr hidle).mono fun _ h => h.elim)
  have hready : (h₁.held e).length < (h.held e).length ∨
      ∀ id ∈ s.drainedIncomingTransfers.extend s.incomingTransfers,
        ¬ σ.Ready h e (s.drainedIncomingTransfers.extend s.incomingTransfers) id :=
    hor.imp_right fun ⟨_, _, _, hall⟩ id hid =>
      hall id ((iter.transfers_perm _).mem_iff.mpr (AList.mem_keys.mp hid))
  unfold Executor.processIncomingTransfers
  simp only [bind, Except.bind, hok]
  by_cases hu : unlocked = []
  · subst hu
    exact ⟨s₁, h₁, rfl, hsteps, htaken, hr₁,
      State.idleBut_false.mp (hidle₁.mono fun a ha => absurd ha List.not_mem_nil), hready⟩
  · unfold Course.work at hwork
    have hext := length_extendSet [] unlocked
    simp only [List.length_nil] at hwork hext
    have hbound : Course.work h₁ e (Executor.extendSet [] unlocked) ≤ iter.fuel := by
      unfold Course.work
      omega
    have hiter : (h₁.held e).length < iter.fuel := by omega
    obtain ⟨s₂, h₂, hok₂, hsteps₂, htaken₂, hr₂, hidle₂, hlen₂⟩ :=
      drainPendingQueues_spec 0 (Executor.extendSet [] unlocked) hiter hbound hr₁
        (hidle₁.mono fun a ha => mem_extendSet.mpr (Or.inr ha))
    exact ⟨s₂, h₂, (if_neg hu).trans hok₂, hsteps.trans hsteps₂, htaken₂.trans htaken, hr₂, hidle₂,
      hready.imp_left fun hlt => by omega⟩

end Course

end DagBft.Fusion
