/-
  The transactions that the executors of the writeback design execute, as jobs over the
  accounts (`Lib/Loan`): they stand in sequence order, the accounts stay with their
  executors, and a payment between two executors runs at the one of its destination account.

  `Course.value` is what the first transactions leave. A payment between two executors counts
  there as the two compute it.
-/
import DagBft.Fusion.System
import DagBft.Lib.Loan
import DagBft.Lib.Buffers
import DagBft.Writeback.Payments

namespace DagBft.Writeback

open Worker Fusion Loan

/-- A transaction of the sequence with its batch. -/
structure Task where
  digest : Bytes
  txBytes : Bytes
  header : TransactionHeader
  sbTx : SmallBankTransaction

instance : Inhabited Task := ⟨⟨[], [], ⟨0, ⟨0, 0⟩⟩, ⟨.balance, 0, 0, Double.ofBits 0⟩⟩⟩

/-- The accounts of a payment between two executors after it. -/
def remoteEffect (sbTx : SmallBankTransaction) (store : AccountStore) : AccountStore :=
  match store sbTx.accountId, store sbTx.destAccountId with
  | some src, some dest =>
      let r := remotePay src dest sbTx.amount
      Function.update (Function.update store sbTx.accountId (some r.1)) sbTx.destAccountId
        (some r.2.1)
  | _, _ => store

/-- The transactions in sequence order over the accounts that there are. -/
structure Course (partition : Partition) where
  store : AccountStore
  tasks : List Task
  isSome_store : ∀ a, (store a).isSome ↔ (partition a).isSome
  header : ∀ t ∈ tasks, TransactionHeader.parse t.txBytes = some t.header
  payload : ∀ t ∈ tasks, parseSmallbankPayload t.txBytes = some t.sbTx
  known : ∀ t ∈ tasks, ∀ a ∈ t.sbTx.requiredAccounts, (partition a).isSome
  /-- Only payments have another destination account, and all of them do. -/
  payment : ∀ t ∈ tasks, t.sbTx.txType = .sendPayment ↔ t.sbTx.destAccountId ≠ t.sbTx.accountId
  distinct : (tasks.map fun t => t.header.id).Nodup

namespace Course

variable {partition : Partition} (σ : Course partition)

def task (j : ℕ) : Task := σ.tasks.getD j default

def id (j : ℕ) : TxID := (σ.task j).header.id

def src (j : ℕ) : ℕ := (σ.task j).sbTx.accountId

def dest (j : ℕ) : ℕ := (σ.task j).sbTx.destAccountId

def accounts (j : ℕ) : List ℕ :=
  if j < σ.tasks.length then (σ.task j).sbTx.requiredAccounts else []

/-- The executor that has the account. -/
def home (_ : Course partition) (a : ℕ) : ℕ := partition.ownerD a

def plan : Handover.Plan ℕ ℕ := ⟨fun j => ⟨σ.accounts j, σ.home (σ.dest j)⟩, σ.home⟩

/-- A payment between two executors. -/
def Split (j : ℕ) : Prop := j < σ.tasks.length ∧ σ.home (σ.src j) ≠ σ.home (σ.dest j)

instance (j : ℕ) : Decidable (σ.Split j) := inferInstanceAs (Decidable (_ ∧ _))

/-- What a transaction does to the accounts. -/
def effectOf (t : Task) (store : AccountStore) : AccountStore :=
  if σ.home t.sbTx.accountId = σ.home t.sbTx.destAccountId then effect t.sbTx store
  else remoteEffect t.sbTx store

/-- The accounts after the first `j` transactions, one after the other. -/
def value (j : ℕ) : AccountStore := (σ.tasks.take j).foldl (fun s t => σ.effectOf t s) σ.store

/-- The state of an account after the first `j` transactions. -/
def state (j a : ℕ) : AccountState := (σ.value j a).getD ⟨0, 0⟩

def locality (e j : ℕ) : TransactionLocality :=
  if σ.home (σ.src j) = σ.home (σ.dest j) then .local
  else if σ.home (σ.src j) = e then .distributedSource (σ.src j) (σ.home (σ.dest j))
  else .distributedDest (σ.dest j) (σ.home (σ.src j))

/-- Transaction `j` in the queues of an executor. -/
def pending (e j : ℕ) : PendingTransaction :=
  ⟨(σ.task j).txBytes, (σ.task j).header, (σ.task j).sbTx, (σ.task j).digest, σ.accounts j,
    σ.locality e j⟩

/-- The states of the two accounts after a payment between two executors, and whether the
    source account can pay. -/
def paid (j : ℕ) : AccountState × AccountState × Bool :=
  remotePay (σ.state j (σ.src j)) (σ.state j (σ.dest j)) (σ.task j).sbTx.amount

/-- The state that the executor of the source account sends. -/
def transferOf (j : ℕ) : StateTransferRequest :=
  ⟨⟨σ.id j, σ.src j, σ.state j (σ.src j)⟩, σ.home (σ.dest j)⟩

/-- The state that is sent back to it. -/
def writebackOf (j : ℕ) : StateWritebackRequest :=
  ⟨⟨σ.id j, σ.src j, (σ.paid j).1, (σ.paid j).2.2⟩, σ.home (σ.src j)⟩

variable {σ} {e i j a : ℕ}

theorem task_mem (h : j < σ.tasks.length) : σ.task j ∈ σ.tasks := by
  unfold task
  rw [List.getD_eq_getElem _ _ h]
  exact List.getElem_mem h

theorem accounts_of_lt (h : j < σ.tasks.length) :
    σ.accounts j = (σ.task j).sbTx.requiredAccounts := if_pos h

theorem lt_of_mem (h : a ∈ σ.accounts j) : j < σ.tasks.length := by
  by_contra hge
  rw [accounts, if_neg hge] at h
  cases h

theorem id_injective (hi : i < σ.tasks.length) (hj : j < σ.tasks.length)
    (h : σ.id i = σ.id j) : i = j := by
  have hid : ∀ k, k < σ.tasks.length → (σ.tasks.map fun t => t.header.id)[k]? = some (σ.id k) := by
    intro k hk
    rw [List.getElem?_map, List.getElem?_eq_getElem hk]
    unfold id task
    rw [List.getD_eq_getElem _ _ hk]
    rfl
  apply (List.getElem?_inj (by simpa using hi) σ.distinct).mp
  rw [hid i hi, hid j hj, h]

/-- A payment has two accounts, every other transaction one. -/
theorem accounts_eq (h : j < σ.tasks.length) :
    σ.accounts j = if σ.src j = σ.dest j then [σ.src j] else [σ.src j, σ.dest j] := by
  have hpay := σ.payment _ (task_mem h)
  rw [accounts_of_lt h]
  unfold SmallBankTransaction.requiredAccounts
  by_cases heq : σ.src j = σ.dest j
  · rw [if_pos heq]
    have hne : (σ.task j).sbTx.txType ≠ .sendPayment := fun ht => hpay.mp ht heq.symm
    exact requiredAccounts_single hne
  · rw [if_neg heq]
    exact requiredAccounts_sendPayment (hpay.mpr (Ne.symm heq))

theorem nodup_accounts (j : ℕ) : (σ.accounts j).Nodup := by
  by_cases h : j < σ.tasks.length
  · rw [accounts_eq h]
    split
    · exact List.nodup_singleton _
    · rename_i hne
      simpa using hne
  · rw [accounts, if_neg h]
    exact List.nodup_nil

theorem mem_accounts : a ∈ σ.accounts j ↔ j < σ.tasks.length ∧ (a = σ.src j ∨ a = σ.dest j) := by
  constructor
  · intro h
    have hlt := lt_of_mem h
    rw [accounts_eq hlt] at h
    refine ⟨hlt, ?_⟩
    split at h
    · exact Or.inl (List.mem_singleton.mp h)
    · simpa using h
  · rintro ⟨hlt, h⟩
    rw [accounts_eq hlt]
    split
    · rename_i heq
      rw [← heq, or_self] at h
      exact List.mem_singleton.mpr h
    · simpa using h

theorem cells_plan (j : ℕ) : σ.plan.cells j = σ.accounts j := rfl

theorem target_plan (j : ℕ) : σ.plan.target j = σ.home (σ.dest j) := rfl

theorem home_plan (a : ℕ) : σ.plan.home a = σ.home a := rfl

theorem mem_part_iff : a ∈ part σ.plan e j ↔
    j < σ.tasks.length ∧ (a = σ.src j ∨ a = σ.dest j) ∧ σ.home a = e := by
  rw [mem_part, cells_plan, mem_accounts, home_plan, and_assoc]

theorem lt_of_part (h : part σ.plan e j ≠ []) : j < σ.tasks.length := by
  obtain ⟨a, ha⟩ := List.exists_mem_of_ne_nil _ h
  exact (mem_part_iff.mp ha).1

theorem nodup_part : (part σ.plan e j).Nodup := (nodup_accounts j).filter _

theorem proper_plan : Proper σ.plan := by
  intro j hne
  obtain ⟨a, ha⟩ := List.exists_mem_of_ne_nil _ hne
  exact List.ne_nil_of_mem (mem_part_iff.mpr ⟨lt_of_mem ha, Or.inr rfl, rfl⟩)

/-- The accounts of an executor that has a part in a transaction. -/
theorem part_local (h : ¬ σ.Split j) (hpart : part σ.plan e j ≠ []) :
    part σ.plan e j = σ.accounts j ∧ σ.plan.target j = e := by
  have hj := lt_of_part hpart
  have heq : σ.home (σ.src j) = σ.home (σ.dest j) := by
    by_contra hne
    exact h ⟨hj, hne⟩
  obtain ⟨a, ha⟩ := List.exists_mem_of_ne_nil _ hpart
  obtain ⟨-, hor, hhome⟩ := mem_part_iff.mp ha
  have hdest : σ.home (σ.dest j) = e := by
    rcases hor with rfl | rfl
    · rw [← heq, hhome]
    · exact hhome
  refine ⟨List.filter_eq_self.mpr fun b hb => ?_, hdest⟩
  apply decide_eq_true
  rcases (mem_accounts.mp hb).2 with rfl | rfl
  · exact heq.trans hdest
  · exact hdest

theorem part_src (h : σ.Split j) : part σ.plan (σ.home (σ.src j)) j = [σ.src j] := by
  have hne : σ.src j ≠ σ.dest j := fun heq => h.2 (by rw [heq])
  unfold part
  rw [cells_plan, accounts_eq h.1, if_neg hne]
  simp [home_plan, Ne.symm h.2]

theorem part_dest (h : σ.Split j) : part σ.plan (σ.home (σ.dest j)) j = [σ.dest j] := by
  have hne : σ.src j ≠ σ.dest j := fun heq => h.2 (by rw [heq])
  unfold part
  rw [cells_plan, accounts_eq h.1, if_neg hne]
  simp [home_plan, h.2]

/-- Who has a part in a payment between two executors. -/
theorem home_of_part (hpart : part σ.plan e j ≠ []) :
    e = σ.home (σ.src j) ∨ e = σ.home (σ.dest j) := by
  obtain ⟨a, ha⟩ := List.exists_mem_of_ne_nil _ hpart
  obtain ⟨-, hor, hhome⟩ := mem_part_iff.mp ha
  rw [← hhome]
  exact hor.imp (congrArg _) (congrArg _)

/-- An executor that is not the target of a transaction it has a part in lends the source
    account. -/
theorem split_of_ne (hpart : part σ.plan e j ≠ []) (hne : σ.plan.target j ≠ e) :
    σ.Split j ∧ e = σ.home (σ.src j) := by
  have he := (home_of_part hpart).resolve_right (Ne.symm hne)
  exact ⟨⟨lt_of_part hpart, fun heq => hne (by rw [target_plan, ← heq, he])⟩, he⟩

/-! ## The accounts -/

theorem value_succ (h : j < σ.tasks.length) :
    σ.value (j + 1) = σ.effectOf (σ.task j) (σ.value j) := by
  unfold value task
  rw [List.take_add_one, List.getElem?_eq_getElem h, List.foldl_append,
    List.getD_eq_getElem _ _ h]
  rfl

theorem isSome_remoteEffect (sbTx : SmallBankTransaction) (store : AccountStore) (a : ℕ) :
    (remoteEffect sbTx store a).isSome = (store a).isSome := by
  unfold remoteEffect
  cases hsrc : store sbTx.accountId with
  | none => rfl
  | some src =>
      cases hdest : store sbTx.destAccountId with
      | none => rfl
      | some dest =>
          dsimp only
          by_cases hd : a = sbTx.destAccountId
          · rw [hd, Function.update_self, hdest]
            rfl
          · rw [Function.update_of_ne hd]
            by_cases hs : a = sbTx.accountId
            · rw [hs, Function.update_self, hsrc]
              rfl
            · rw [Function.update_of_ne hs]

theorem remoteEffect_of_ne {sbTx : SmallBankTransaction} (store : AccountStore)
    (hsrc : a ≠ sbTx.accountId) (hdest : a ≠ sbTx.destAccountId) :
    remoteEffect sbTx store a = store a := by
  unfold remoteEffect
  cases store sbTx.accountId with
  | none => rfl
  | some src =>
      cases store sbTx.destAccountId with
      | none => rfl
      | some dest =>
          dsimp only
          rw [Function.update_of_ne hdest, Function.update_of_ne hsrc]

theorem isSome_effectOf (t : Task) (store : AccountStore) (a : ℕ) :
    (σ.effectOf t store a).isSome = (store a).isSome := by
  unfold effectOf
  split
  · exact isSome_effect _ _ _
  · exact isSome_remoteEffect _ _ _

theorem isSome_value (j a : ℕ) : (σ.value j a).isSome ↔ (partition a).isSome := by
  rw [← σ.isSome_store]
  unfold value
  generalize σ.tasks.take j = l
  induction l using List.reverseRecOn with
  | nil => rfl
  | append_singleton l t ih =>
      rw [List.foldl_append, List.foldl_cons, List.foldl_nil, isSome_effectOf, ih]

theorem isSome_value_of_mem (i : ℕ) (h : a ∈ σ.accounts j) : (σ.value i a).isSome := by
  have hj := lt_of_mem h
  rw [accounts_of_lt hj] at h
  exact (isSome_value i a).mpr (σ.known _ (task_mem hj) a h)

theorem value_eq_state (i : ℕ) (h : a ∈ σ.accounts j) : σ.value i a = some (σ.state i a) := by
  obtain ⟨v, hv⟩ := Option.isSome_iff_exists.mp (isSome_value_of_mem i h)
  unfold state
  rw [hv]
  rfl

theorem value_of_notMem (h : a ∉ σ.accounts j) : σ.value (j + 1) a = σ.value j a := by
  by_cases hj : j < σ.tasks.length
  · rw [value_succ hj]
    unfold effectOf
    split
    · refine effect_of_notMem (fun b hb => ?_) ?_
      · rw [← accounts_of_lt hj] at hb
        exact isSome_value_of_mem j hb
      · rwa [← accounts_of_lt hj]
    · rw [mem_accounts, not_and, not_or] at h
      exact remoteEffect_of_ne _ (h hj).1 (h hj).2
  · unfold value
    rw [List.take_of_length_le (by omega), List.take_of_length_le (by omega)]

/-- The accounts after a transaction at one executor. -/
theorem value_succ_local (h : ¬ σ.Split j) (hj : j < σ.tasks.length) :
    σ.value (j + 1) = effect (σ.task j).sbTx (σ.value j) := by
  have heq : σ.home (σ.src j) = σ.home (σ.dest j) := by
    by_contra hne
    exact h ⟨hj, hne⟩
  rw [value_succ hj]
  exact if_pos heq

theorem src_ne_dest (h : σ.Split j) : σ.src j ≠ σ.dest j := fun heq => h.2 (by rw [heq])

theorem src_mem (hj : j < σ.tasks.length) : σ.src j ∈ σ.accounts j :=
  mem_accounts.mpr ⟨hj, Or.inl rfl⟩

theorem dest_mem (hj : j < σ.tasks.length) : σ.dest j ∈ σ.accounts j :=
  mem_accounts.mpr ⟨hj, Or.inr rfl⟩

theorem value_succ_split (h : σ.Split j) : σ.value (j + 1) =
    Function.update (Function.update (σ.value j) (σ.src j) (some (σ.paid j).1)) (σ.dest j)
      (some (σ.paid j).2.1) := by
  have hsrc : σ.value j (σ.task j).sbTx.accountId = _ := value_eq_state j (src_mem h.1)
  have hdest : σ.value j (σ.task j).sbTx.destAccountId = _ := value_eq_state j (dest_mem h.1)
  have hremote : σ.effectOf (σ.task j) (σ.value j) = remoteEffect (σ.task j).sbTx (σ.value j) :=
    if_neg h.2
  rw [value_succ h.1, hremote]
  unfold remoteEffect
  rw [hsrc, hdest]
  rfl

theorem value_src (h : σ.Split j) : σ.value (j + 1) (σ.src j) = some (σ.paid j).1 := by
  rw [value_succ_split h, Function.update_of_ne (src_ne_dest h), Function.update_self]

theorem value_dest (h : σ.Split j) : σ.value (j + 1) (σ.dest j) = some (σ.paid j).2.1 := by
  rw [value_succ_split h, Function.update_self]

/-- What has run last on an account determines its state. -/
theorem value_eq_of_clear (h : σ.plan.Clear a i j) (hij : i ≤ j) : σ.value j a = σ.value i a := by
  have hf : ∀ j a, a ∉ σ.plan.cells j → σ.value (j + 1) a = σ.value j a := fun _ _ hna =>
    value_of_notMem hna
  exact h.eq hf hij

end Course

end DagBft.Writeback
