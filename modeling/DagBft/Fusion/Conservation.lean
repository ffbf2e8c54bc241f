/-
  What `process_incoming_transfers` of the data-fusion design leaves to do
  (`worker/src/batch_executor.rs`).

  The function goes once over the ids of the transfers that it has received, and then drains
  the queues of the accounts that it unlocked; a drain passes over every `MigrateIn`. So a
  `MigrateIn` with all of its transfers waits for the next call if it gets to the head of its
  queues only after the loop has passed its id. `work_conserved_iff` says exactly when this
  does not happen (`Executor.InOrder`), and that nothing else is ever left that could be done;
  `not_work_conserved` is a run in which it does happen.
-/
import DagBft.Fusion.Drain

namespace DagBft.Fusion

open Worker LockQueues Handover

/-! ## What an executor could do -/

namespace Executor

variable (s : Executor)

/-- The transfers that have been received for a transaction. -/
def receivedFor (txId : TxID) : List StateTransfer :=
  s.drainedIncomingTransfers.get txId ++ s.incomingTransfers.get txId

def IsPending (p : PendingTransaction) : Prop := ∃ a, p ∈ s.queueOf a

def AtHeads (p : PendingTransaction) : Prop := ∀ a ∈ p.enqueuedOn, (s.queueOf a).head? = some p

/-- A `MigrateIn` for which everything has been received. -/
def HasAll (p : PendingTransaction) : Prop :=
  ∃ accounts, p.locality = .migrateIn accounts ∧
    ∀ x ∈ accounts, x.1 ∈ (s.receivedFor p.txHeader.id).map StateTransfer.srcAccountId

/-- It is at the head of its queues, and what it waits for is there. A `MigrateOut` waits for
    nothing else. -/
structure Runnable (p : PendingTransaction) : Prop where
  pending : s.IsPending p
  heads : s.AtHeads p
  able : (p.locality = .local ∧ ∀ a ∈ p.requiredAccounts, (s.accountStore a).isSome) ∨
    (∃ owned others dest, p.locality = .migrateOut owned others dest) ∨ s.HasAll p

/-- The transaction `q` is before `p` in one of the queues. -/
def Ahead (q p : PendingTransaction) : Prop := q ≠ p ∧ ∃ a, [q, p].Sublist (s.queueOf a)

/-- It could be dealt with, were everything before it dealt with that could be. -/
inductive Workable : PendingTransaction → Prop
  | intro {p : PendingTransaction} (hp : s.IsPending p) (hable : p.Drainable ∨ s.HasAll p)
      (hahead : ∀ q, s.Ahead q p → Workable q) : Workable p

/-- Before each `MigrateIn` that could be dealt with there are only such `MigrateIn`s, and
    with ids that come earlier. -/
def InOrder (txIds : List TxID) : Prop :=
  ∀ p q, s.Workable p → s.HasAll p → s.Ahead q p →
    s.HasAll q ∧ txIds.idxOf q.txHeader.id < txIds.idxOf p.txHeader.id

end Executor

theorem PendingTransaction.Drainable.not_hasAll {s : Executor} {p : PendingTransaction}
    (h : p.Drainable) : ¬ s.HasAll p := by
  rintro ⟨accounts, hl, -⟩
  simp [PendingTransaction.Drainable, hl] at h

theorem Executor.HasAll.of_buffers {s t : Executor} {p : PendingTransaction} (h : s.HasAll p)
    (hreceived : t.receivedFor p.txHeader.id = s.receivedFor p.txHeader.id) : t.HasAll p := by
  obtain ⟨accounts, hl, hall⟩ := h
  refine ⟨accounts, hl, ?_⟩
  rwa [hreceived]

section Lists

variable {held held' : List PendingTransaction} {s : Executor} {p q : PendingTransaction}

/-- In terms of the list of the pending transactions. -/
structure Lists (held : List PendingTransaction) (s : Executor) : Prop extends Holds held s where
  ne_nil : ∀ p ∈ held, p.enqueuedOn ≠ []

namespace Lists

theorem nodup (hl : Lists held s) : held.Nodup := hl.distinct.of_map _

theorem isPending_iff (hl : Lists held s) : s.IsPending p ↔ p ∈ held := by
  unfold Executor.IsPending
  simp only [hl.toHolds.queueOf_eq, mem_queue]
  constructor
  · rintro ⟨a, hp, -⟩
    exact hp
  · intro hp
    obtain ⟨a, ha⟩ := List.exists_mem_of_ne_nil _ (hl.ne_nil p hp)
    exact ⟨a, hp, ha⟩

theorem atHeads_iff (hl : Lists held s) : s.AtHeads p ↔ AtHead held p := by
  unfold Executor.AtHeads
  simp only [hl.toHolds.queueOf_eq, head?_queue]
  exact Iff.rfl

theorem ahead_iff (hl : Lists held s) :
    s.Ahead q p ↔ Ahead PendingTransaction.enqueuedOn held q p := by
  unfold Executor.Ahead
  simp only [hl.toHolds.queueOf_eq]
  exact LockQueues.ahead_iff.symm

/-- The list is determined but for its order. -/
theorem mem_iff (hl : Lists held s) (hl' : Lists held' s) : p ∈ held ↔ p ∈ held' :=
  hl.isPending_iff.symm.trans hl'.isPending_iff

end Lists

end Lists

/-! ## One pass over the ids -/

/-- What a pass over the ids takes out of the queues: a `MigrateIn` that has all its transfers,
    when each transaction before it has been taken earlier in the pass. -/
structure Pass (held left : List PendingTransaction) (hasAll : PendingTransaction → Prop)
    (txIds : List TxID) : Prop where
  sublist : left.Sublist held
  taken : ∀ p ∈ held, p ∉ left → hasAll p ∧ p.txHeader.id ∈ txIds ∧
    ∀ q, Ahead PendingTransaction.enqueuedOn held q p →
      q ∉ left ∧ txIds.idxOf q.txHeader.id < txIds.idxOf p.txHeader.id
  takes : ∀ p ∈ held, hasAll p → p.txHeader.id ∈ txIds →
    (∀ q, Ahead PendingTransaction.enqueuedOn held q p →
      q ∉ left ∧ txIds.idxOf q.txHeader.id < txIds.idxOf p.txHeader.id) → p ∉ left

section Pass

variable {held left : List PendingTransaction} {hasAll hasAll' : PendingTransaction → Prop}
  {txIds : List TxID} {txId : TxID} {p q : PendingTransaction}

theorem idxOf_cons_of_mem {id : TxID} (hnot : txId ∉ txIds) (hid : id ∈ txIds) :
    (txId :: txIds).idxOf id = txIds.idxOf id + 1 :=
  List.idxOf_cons_ne _ fun heq => hnot (heq ▸ hid)

theorem idxOf_cons_le (txId : TxID) (txIds : List TxID) (id : TxID) :
    (txId :: txIds).idxOf id ≤ txIds.idxOf id + 1 := by
  by_cases hid : txId = id
  · rw [hid, List.idxOf_cons_self]
    exact Nat.zero_le _
  · rw [List.idxOf_cons_ne _ hid]

/-- The first id is passed over. -/
theorem Pass.skip (h : Pass held left hasAll txIds) (hid : txId ∉ txIds)
    (hnot : ∀ p ∈ held, p.txHeader.id = txId → hasAll p →
      ¬ AtHead held p) : Pass held left hasAll (txId :: txIds) where
  sublist := h.sublist
  taken p hp hgone := by
    obtain ⟨hall, hmem, hahead⟩ := h.taken p hp hgone
    refine ⟨hall, List.mem_cons_of_mem _ hmem, fun q hq => ?_⟩
    obtain ⟨hqgone, hlt⟩ := hahead q hq
    rw [idxOf_cons_of_mem hid hmem]
    have := idxOf_cons_le txId txIds q.txHeader.id
    exact ⟨hqgone, by omega⟩
  takes p hp hall hmem hahead := by
    by_cases hpid : p.txHeader.id = txId
    · -- the first one has nothing before it
      refine absurd (head_of_not_ahead hp fun q hq => ?_) (hnot p hp hpid hall)
      have hlt := (hahead q hq).2
      rw [hpid, List.idxOf_cons_self] at hlt
      exact absurd hlt (Nat.not_lt_zero _)
    · have hmem' := (List.mem_cons.mp hmem).resolve_left hpid
      refine h.takes p hp hall hmem' fun q hq => ?_
      obtain ⟨hqgone, hlt⟩ := hahead q hq
      have hqid : q.txHeader.id ∈ txIds :=
        (h.taken q (hq.2.1.subset List.mem_cons_self) hqgone).2.1
      rw [idxOf_cons_of_mem hid hmem', idxOf_cons_of_mem hid hqid] at hlt
      exact ⟨hqgone, by omega⟩

/-- The first id is that of a transaction that is taken. -/
theorem Pass.take (h : Pass (held.erase p) left hasAll' txIds) (hid : p.txHeader.id ∉ txIds)
    (hdistinct : (held.map fun p => p.txHeader.id).Nodup) (hp : p ∈ held)
    (hhead : AtHead held p) (hall : hasAll p)
    (hsame : ∀ q ∈ held, q.txHeader.id ≠ p.txHeader.id → (hasAll' q ↔ hasAll q)) :
    Pass held left hasAll (p.txHeader.id :: txIds) := by
  have hnodup : held.Nodup := hdistinct.of_map _
  have hgone : p ∉ left := fun hmem => hnodup.not_mem_erase (h.sublist.subset hmem)
  have hne : ∀ q ∈ held, q ≠ p → q.txHeader.id ≠ p.txHeader.id := fun q hq hqp heq =>
    hqp (List.inj_on_of_nodup_map hdistinct hq hp heq)
  refine ⟨h.sublist.trans List.erase_sublist, fun q hq hqgone => ?_,
    fun q hq hqall hmem hahead => ?_⟩
  · by_cases hqp : q = p
    · subst hqp
      exact ⟨hall, List.mem_cons_self, fun r hr => absurd hr (hhead.not_ahead hnodup)⟩
    · obtain ⟨hqall, hmem, hahead⟩ := h.taken q ((List.mem_erase_of_ne hqp).mpr hq) hqgone
      refine ⟨(hsame q hq (hne q hq hqp)).mp hqall, List.mem_cons_of_mem _ hmem,
        fun r hr => ?_⟩
      rw [idxOf_cons_of_mem hid hmem]
      by_cases hrp : r = p
      · subst hrp
        rw [List.idxOf_cons_self]
        exact ⟨hgone, Nat.succ_pos _⟩
      · obtain ⟨hrgone, hlt⟩ := hahead r (hr.erase hrp hqp)
        have := idxOf_cons_le p.txHeader.id txIds r.txHeader.id
        exact ⟨hrgone, by omega⟩
  · by_cases hqp : q = p
    · rwa [hqp]
    · have hmem' := (List.mem_cons.mp hmem).resolve_left (hne q hq hqp)
      refine h.takes q ((List.mem_erase_of_ne hqp).mpr hq)
        ((hsame q hq (hne q hq hqp)).mpr hqall) hmem' fun r hr => ?_
      obtain ⟨hrgone, hlt⟩ := hahead r (hr.mono List.erase_sublist)
      have hrmem : r ∈ held.erase p := hr.2.1.subset List.mem_cons_self
      have hrid := (h.taken r hrmem hrgone).2.1
      rw [idxOf_cons_of_mem hid hmem', idxOf_cons_of_mem hid hrid] at hlt
      exact ⟨hrgone, by omega⟩

end Pass

/-! ## The executor as a site -/

namespace Course

variable {cfg : Settings} {σ : Course cfg} {h : State ℕ ℕ} {e j : ℕ}
  {rest : Multiset StateTransferRequest} {s : Executor}

/-- The transactions that the executor holds back. -/
def heldBack (σ : Course cfg) (h : State ℕ ℕ) (e : ℕ) : List PendingTransaction :=
  (h.held e).map (σ.pending e)

theorem Running.lists (hr : σ.Running h e rest s) : Lists (σ.heldBack h e) s where
  queues := by
    rw [hr.site.queues]
    funext a
    have hqueue : σ.queue e (h.held e) a =
        LockQueues.queue PendingTransaction.enqueuedOn (σ.heldBack h e) a := by
      unfold LockQueues.queue Course.queue heldBack
      rw [List.flatMap_map]
      refine List.flatMap_congr fun j hj => ?_
      rw [enqueuedOn_pending (hr.inv.touch e j hj)]
    unfold queues queuesOf
    rw [hqueue]
  proper p hp := by
    obtain ⟨j, hj, rfl⟩ := List.mem_map.mp hp
    have hjN := lt_of_held hr.inv hj
    have hlocality := locality_eq (σ := σ) e j
    refine ⟨σ.payload _ (task_mem hjN), fun hl => ?_, fun owned others dest hl => ?_,
      fun e' hl => ?_⟩
    · by_cases he : σ.plan.target j = e
      · show (if σ.plan.target j = e then σ.accounts j else []) = _
        rw [if_pos he]
        exact (requiredAccounts_eq hjN).symm
      · rw [if_neg he, if_neg (hr.inv.touch e j hj)] at hlocality
        exact absurd (hlocality.symm.trans hl) (by simp)
    · have hnamed := named_localityOf e (σ.before j) (σ.task j).sbTx (σ.task j).tx.target
      rw [requiredAccounts_eq hjN] at hnamed
      have hsent : localityOf e (σ.before j) (σ.accounts j) (σ.task j).tx.target =
          .migrateOut owned others dest := hl
      rw [hsent] at hnamed
      exact hnamed
    · by_cases he : σ.plan.target j = e
      · rw [if_pos he] at hlocality
        have hl' := hlocality.symm.trans hl
        split at hl'
        · cases hl'
        · cases hl'
      · rw [if_neg he, if_neg (hr.inv.touch e j hj)] at hlocality
        exact absurd (hlocality.symm.trans hl) (by simp)
  distinct := by
    unfold heldBack
    rw [List.map_map]
    refine List.Nodup.map_on (fun i hi j hj heq => ?_) ((hr.inv.sorted e).imp ne_of_lt)
    exact id_injective (lt_of_held hr.inv hi) (lt_of_held hr.inv hj) heq
  ne_nil p hp := by
    obtain ⟨j, hj, rfl⟩ := List.mem_map.mp hp
    rw [enqueuedOn_pending (hr.inv.touch e j hj)]
    exact hr.inv.touch e j hj

theorem pair_sublist {l : List ℕ} {i : ℕ} (hs : l.Pairwise (· < ·)) (hi : i ∈ l) (hj : j ∈ l)
    (hlt : i < j) : [i, j].Sublist l := by
  induction l with
  | nil => cases hi
  | cons x l ih =>
      rw [List.pairwise_cons] at hs
      rw [pair_sublist_cons]
      rcases List.mem_cons.mp hi with rfl | hi'
      · exact Or.inr ⟨rfl, (List.mem_cons.mp hj).resolve_left (by omega)⟩
      · rcases List.mem_cons.mp hj with rfl | hj'
        · exact absurd (hs.1 i hi') (by omega)
        · exact Or.inl (ih hs.2 hi' hj')

/-- A transaction at its heads is the first in the handover as well. -/
theorem head_of_atHead (hr : σ.Running h e rest s) (hj : j ∈ h.held e)
    (hhead : AtHead (σ.heldBack h e) (σ.pending e j)) : h.Head σ.plan e j := by
  intro i hi hlt a haj hai
  refine hhead.not_ahead (q := σ.pending e i) hr.lists.nodup ⟨fun heq => ?_, ?_, a, ?_, ?_⟩
  · have := pending_injective (lt_of_held hr.inv hi) (lt_of_held hr.inv hj) heq
    omega
  · exact (pair_sublist (hr.inv.sorted e) hi hj hlt).map (σ.pending e)
  · rwa [enqueuedOn_pending (hr.inv.touch e i hi)]
  · rwa [enqueuedOn_pending (hr.inv.touch e j hj)]

theorem locality_migrateIn {accounts : List (ℕ × ℕ)}
    (hl : (σ.pending e j).locality = .migrateIn accounts) :
    σ.plan.target j = e ∧ accounts = σ.missing e j ∧
      ∃ a ∈ σ.accounts j, σ.plan.owner j a ≠ e := by
  have hlocality := (locality_eq (σ := σ) e j).symm.trans hl
  by_cases he : σ.plan.target j = e
  · rw [if_pos he] at hlocality
    split at hlocality
    · cases hlocality
    · rename_i howner
      push Not at howner
      exact ⟨he, (TransactionLocality.migrateIn.inj hlocality).symm, howner⟩
  · rw [if_neg he] at hlocality
    split at hlocality
    · cases hlocality
    · cases hlocality

/-- What `drain_pending_queues` can deal with waits for no transfers. -/
theorem owner_of_drainable (hd : (σ.pending e j).Drainable) {a : ℕ}
    (ha : a ∈ σ.plan.touches e j) : σ.plan.owner j a = e := by
  by_cases he : σ.plan.target j = e
  · have hlocality := locality_eq (σ := σ) e j
    rw [if_pos he] at hlocality
    split at hlocality
    · rename_i howner
      exact howner a (Plan.mem_cells_of_mem_touches ha)
    · have hl : (σ.pending e j).locality = .migrateIn _ := hlocality
      simp [PendingTransaction.Drainable, hl] at hd
  · exact (Plan.mem_touches.mp ha).2.resolve_left he

/-- A `Local` or `MigrateOut` at its heads has its accounts in the store. -/
theorem runnable_of_drainable (hr : σ.Running h e rest s) (hj : j ∈ h.held e)
    (hhead : AtHead (σ.heldBack h e) (σ.pending e j)) (hd : (σ.pending e j).Drainable) :
    h.Runnable σ.plan e j := by
  have hhead' := head_of_atHead hr hj hhead
  refine ⟨hj, hhead', fun a ha => ?_⟩
  exact hr.inv.present_of_head hj hhead' (Plan.mem_cells_of_mem_touches ha)
    (owner_of_drainable hd ha)

theorem not_atHead_of_idle (hr : σ.Running h e rest s) (hidle : h.Idle σ.plan e)
    {p : PendingTransaction} (hp : p ∈ σ.heldBack h e) (hd : p.Drainable) :
    ¬ AtHead (σ.heldBack h e) p := by
  intro hhead
  obtain ⟨j, hj, rfl⟩ := List.mem_map.mp hp
  exact hidle j (runnable_of_drainable hr hj hhead hd)

/-- A `MigrateIn` at its heads that has all its transfers is ready. -/
theorem ready_of_hasAll (hr : σ.Running h e rest s) (hin : s.incomingTransfers = ∅)
    {p : PendingTransaction} (hp : p ∈ σ.heldBack h e) (hhead : AtHead (σ.heldBack h e) p)
    (hall : s.HasAll p) : σ.Ready h e s.drainedIncomingTransfers p.txHeader.id := by
  obtain ⟨j, hj, rfl⟩ := List.mem_map.mp hp
  obtain ⟨accounts, hl, hreceived⟩ := hall
  obtain ⟨he, rfl, -⟩ := locality_migrateIn hl
  have hhead' := head_of_atHead hr hj hhead
  refine ⟨j, hj, rfl, he, hhead', fun a ha ho => ?_, fun a ha ho => ?_⟩
  · exact hr.inv.present_of_head hj hhead' ha ho
  · have hmem := hreceived _ (List.mem_map.mpr
      ⟨a, List.mem_filter.mpr ⟨ha, by simpa using ho⟩, rfl⟩)
    unfold Executor.receivedFor at hmem
    rw [hin, TransferMap.get_empty, List.append_nil] at hmem
    exact hmem

/-- As many transfers as a `MigrateIn` waits for are all of them. -/
theorem hasAll_of_length (hr : σ.Running h e rest s) (hin : s.incomingTransfers = ∅)
    {p : PendingTransaction} (hp : p ∈ σ.heldBack h e) {accounts : List (ℕ × ℕ)}
    (hl : p.locality = .migrateIn accounts)
    (hne : s.drainedIncomingTransfers.get p.txHeader.id ≠ [])
    (hlen : (s.drainedIncomingTransfers.get p.txHeader.id).length = accounts.length) :
    s.HasAll p := by
  obtain ⟨j, hj, rfl⟩ := List.mem_map.mp hp
  obtain ⟨he, rfl, -⟩ := locality_migrateIn hl
  obtain ⟨k, hkN, hid, -, hrec⟩ := hr.received hne
  obtain rfl := id_injective hkN (lt_of_held hr.inv hj) hid
  have hall := (hrec.length_eq_iff he).mp hlen
  refine ⟨σ.missing e k, hl, fun x hx => ?_⟩
  obtain ⟨ha, ho⟩ := mem_missing.mp (List.mem_map_of_mem hx)
  unfold Executor.receivedFor
  rw [hin, TransferMap.get_empty, List.append_nil]
  exact hall x.1 ha ho

theorem map_erase_of_inj {β : Type} [DecidableEq β] {f : ℕ → β} {l : List ℕ} (hj : j ∈ l)
    (hinj : ∀ i ∈ l, f i = f j → i = j) : (l.erase j).map f = (l.map f).erase (f j) := by
  induction l with
  | nil => cases hj
  | cons i l ih =>
      rw [List.forall_mem_cons] at hinj
      by_cases hij : i = j
      · rw [hij, List.erase_cons_head, List.map_cons, List.erase_cons_head]
      · have hf : f i ≠ f j := fun heq => hij (hinj.1 heq)
        have hmem : j ∈ l := (List.mem_cons.mp hj).resolve_left (Ne.symm hij)
        rw [List.erase_cons_tail (by simpa using hij), List.map_cons, List.map_cons,
          List.erase_cons_tail (by simpa using hf), ih hmem hinj.2]

theorem accounts_ne_nil (hi : State.Inv σ.plan h) (hj : j ∈ h.held e) : σ.accounts j ≠ [] := by
  obtain ⟨a, ha⟩ := List.exists_mem_of_ne_nil _ (hi.touch e j hj)
  exact List.ne_nil_of_mem (Plan.mem_cells_of_mem_touches ha)

/-- One iteration of the loop of `process_incoming_transfers`, on the list of the pending
    transactions. -/
theorem processTransfers_takes {txId : TxID} {unlocked : List ℕ} (hr : σ.Running h e rest s)
    (hin : s.incomingTransfers = ∅) (hne : s.drainedIncomingTransfers.get txId ≠ [])
    (hidle : h.IdleBut σ.plan e (· ∈ unlocked)) :
    (Executor.processTransfers cfg txId unlocked s = .ok (unlocked, s) ∧
      ∀ p ∈ σ.heldBack h e, p.txHeader.id = txId → s.HasAll p → ¬ AtHead (σ.heldBack h e) p) ∨
    ∃ k s', Executor.processTransfers cfg txId unlocked s = .ok (unlocked ++ σ.accounts k, s') ∧
      σ.Running (h.run σ.plan e k) e rest s' ∧
      (h.run σ.plan e k).IdleBut σ.plan e (· ∈ unlocked ++ σ.accounts k) ∧
      s'.buffers = (∅, s.drainedIncomingTransfers.erase txId) ∧
      ∃ p ∈ σ.heldBack h e, p.txHeader.id = txId ∧ AtHead (σ.heldBack h e) p ∧ s.HasAll p ∧
        σ.heldBack (h.run σ.plan e k) e = (σ.heldBack h e).erase p := by
  have hl := hr.lists
  rcases processTransfers_spec hr hne hidle with
    ⟨hok, hnot⟩ | ⟨k, hk, s', hok, -, hr', hidle', -⟩
  · refine Or.inl ⟨hok, fun p hp hid hall hhead => hnot ?_⟩
    rw [← hid]
    exact ready_of_hasAll hr hin hp hhead hall
  · refine Or.inr ⟨k, s', hok, hr', hidle', ?_⟩
    rcases hl.toHolds.processTransfers hok with
      heq | ⟨p, hp, hid, hhead, ⟨accounts, hlocality, hlen⟩, hholds, hbuffers⟩
    · have hnil : unlocked ++ σ.accounts k = unlocked := (Prod.mk.inj heq).1
      exact absurd (List.append_right_eq_self.mp hnil) (accounts_ne_nil hr.inv hk)
    · rw [hin] at hbuffers
      refine ⟨hbuffers, p, hp, hid, hhead, hasAll_of_length hr hin hp hlocality ?_ ?_, ?_⟩
      · rwa [hid]
      · rw [hid]
        exact hlen
      · -- it is the one that has run
        have hheld : (h.run σ.plan e k).held e = (h.held e).erase k := by simp [State.run]
        have hlists : Lists ((σ.heldBack h e).erase p) s' :=
          ⟨hholds, fun q hq => hl.ne_nil q (List.mem_of_mem_erase hq)⟩
        have hgone : p ∉ σ.heldBack (h.run σ.plan e k) e := fun hmem =>
          hl.nodup.not_mem_erase ((hlists.mem_iff hr'.lists).mpr hmem)
        obtain ⟨j, hj, rfl⟩ := List.mem_map.mp hp
        obtain rfl : j = k := by
          by_contra hjk
          refine hgone (List.mem_map_of_mem ?_)
          rw [hheld]
          exact (List.mem_erase_of_ne hjk).mpr hj
        unfold heldBack
        rw [hheld]
        exact map_erase_of_inj hk fun i hi heq =>
          pending_injective (lt_of_held hr.inv hi) (lt_of_held hr.inv hk) heq

/-- The loop of `process_incoming_transfers` is a pass over the ids. -/
theorem processAllTransfers_pass (txIds : List TxID) (unlocked : List ℕ)
    (hr : σ.Running h e rest s) (hin : s.incomingTransfers = ∅) (hnodup : txIds.Nodup)
    (hne : ∀ txId ∈ txIds, s.drainedIncomingTransfers.get txId ≠ [])
    (hidle : h.IdleBut σ.plan e (· ∈ unlocked)) :
    ∃ unlocked' s' h', Executor.processAllTransfers cfg txIds unlocked s = .ok (unlocked', s') ∧
      σ.Running h' e rest s' ∧ s'.incomingTransfers = ∅ ∧
      (∀ p ∈ σ.heldBack h' e, s'.receivedFor p.txHeader.id = s.receivedFor p.txHeader.id) ∧
      Pass (σ.heldBack h e) (σ.heldBack h' e) s.HasAll txIds := by
  induction txIds generalizing h s unlocked with
  | nil =>
      refine ⟨unlocked, s, h, rfl, hr, hin, fun p _ => rfl, List.Sublist.refl _,
        fun p hp hgone => absurd hp hgone, fun p _ _ hmem => absurd hmem List.not_mem_nil⟩
  | cons txId txIds ih =>
      rw [List.nodup_cons] at hnodup
      rw [List.forall_mem_cons] at hne
      unfold Executor.processAllTransfers
      rcases processTransfers_takes hr hin hne.1 hidle with
        ⟨hok, hnot⟩ | ⟨k, s₁, hok, hr₁, hidle₁, hbuffers, p, hp, hid, hhead, hall, herase⟩
      · obtain ⟨unlocked', s', h', hok', hr', hin', hreceived, hpass⟩ :=
          ih unlocked hr hin hnodup.2 hne.2 hidle
        rw [hok]
        exact ⟨unlocked', s', h', hok', hr', hin', hreceived, hpass.skip hnodup.1 hnot⟩
      · subst hid
        obtain ⟨hin₁, hdrained₁⟩ := Prod.mk.inj hbuffers
        have hother : ∀ id, id ≠ p.txHeader.id → s₁.receivedFor id = s.receivedFor id := by
          intro id hne
          unfold Executor.receivedFor
          rw [hin, hin₁, hdrained₁, TransferMap.get_erase, if_neg hne]
        have hne₁ : ∀ id ∈ txIds, s₁.drainedIncomingTransfers.get id ≠ [] := by
          intro id hmem
          have hid : id ≠ p.txHeader.id := by
            intro heq
            rw [heq] at hmem
            exact hnodup.1 hmem
          rw [hdrained₁, TransferMap.get_erase, if_neg hid]
          exact hne.2 id hmem
        obtain ⟨unlocked', s', h', hok', hr', hin', hreceived, hpass⟩ :=
          ih (unlocked ++ σ.accounts k) hr₁ hin₁ hnodup.2 hne₁ hidle₁
        rw [herase] at hpass
        have hl := hr.lists
        rw [hok]
        refine ⟨unlocked', s', h', hok', hr', hin', fun q hq => ?_,
          hpass.take hnodup.1 hl.distinct hp hhead hall fun q _ hqid => ?_⟩
        · have hmem := hpass.sublist.subset hq
          have hqp : q ≠ p := by
            intro heq
            rw [heq] at hmem
            exact hl.nodup.not_mem_erase hmem
          have hqid : q.txHeader.id ≠ p.txHeader.id := fun heq =>
            hqp (hl.toHolds.eq_of_id (List.mem_of_mem_erase hmem) hp heq)
          rw [hreceived q hq, hother _ hqid]
        · have hsame := hother q.txHeader.id hqid
          exact ⟨fun h => h.of_buffers hsame.symm, fun h => h.of_buffers hsame⟩

end Course

/-! ## The whole call -/

/-- What `process_incoming_transfers` does to the pending transactions: the loop takes some,
    and then the drain. -/
structure Call (s s' : Executor) (held mid left : List PendingTransaction) (txIds : List TxID) :
    Prop where
  lists : Lists held s
  lists' : Lists left s'
  pass : Pass held mid s.HasAll txIds
  sublist : left.Sublist mid
  dealt : ∀ p ∈ mid, p ∉ left → p.Drainable ∧
    ∀ q, Ahead PendingTransaction.enqueuedOn mid q p → q ∉ left
  idle : ∀ p, s'.IsPending p → s'.AtHeads p → ¬ p.Drainable
  received : ∀ p ∈ mid, s'.receivedFor p.txHeader.id = s.receivedFor p.txHeader.id
  listed : ∀ p ∈ held, s.HasAll p → p.txHeader.id ∈ txIds

namespace Call

variable {s s' : Executor} {held mid left : List PendingTransaction} {txIds : List TxID}
  {p q : PendingTransaction}

theorem left_subset (hc : Call s s' held mid left txIds) : left.Sublist held :=
  hc.sublist.trans hc.pass.sublist

/-- Before what has been dealt with there was nothing but what has been dealt with. -/
theorem gone_of_ahead (hc : Call s s' held mid left txIds) (hp : p ∈ held) (hgone : p ∉ left)
    (hq : Ahead PendingTransaction.enqueuedOn held q p) : q ∉ left := by
  intro hqleft
  have hqmid := hc.sublist.subset hqleft
  by_cases hpmid : p ∈ mid
  · exact (hc.dealt p hpmid hgone).2 q
      (hq.restrict hc.lists.nodup hc.pass.sublist hqmid hpmid) hqleft
  · exact ((hc.pass.taken p hp hpmid).2.2 q hq).1 hqmid

theorem workable_of_gone (hc : Call s s' held mid left txIds) (hp : p ∈ held) :
    p ∉ left → s.Workable p := by
  refine ahead_induction PendingTransaction.enqueuedOn
    (motive := fun p => p ∉ left → s.Workable p) hc.lists.nodup (fun p hp ih hgone => ?_) hp
  refine ⟨hc.lists.isPending_iff.mpr hp, ?_, fun q hq => ?_⟩
  · by_cases hmid : p ∈ mid
    · exact Or.inl (hc.dealt p hmid hgone).1
    · exact Or.inr (hc.pass.taken p hp hmid).1
  · have hq' := hc.lists.ahead_iff.mp hq
    exact ih q hq' (hc.gone_of_ahead hp hgone hq')

/-- If nothing is left that could be done, then all is done that could be, were everything
    before it done. -/
theorem gone_of_workable (hc : Call s s' held mid left txIds) (hnone : ∀ p, ¬ s'.Runnable p)
    (hp : s.Workable p) : p ∉ left := by
  induction hp with
  | @intro p hp hable hahead ih =>
      intro hleft
      have hmid := hc.sublist.subset hleft
      have hpending := hc.lists'.isPending_iff.mpr hleft
      have hhead : s'.AtHeads p := by
        rw [hc.lists'.atHeads_iff]
        refine head_of_not_ahead hleft fun q hq => ?_
        have hq' := hc.lists.ahead_iff.mpr (hq.mono hc.left_subset)
        exact ih q hq' (hq.2.1.subset List.mem_cons_self)
      rcases hable with hdrain | hall
      · exact hc.idle p hpending hhead hdrain
      · have hall' := hall.of_buffers (hc.received p hmid)
        exact hnone p ⟨hpending, hhead, Or.inr (Or.inr hall')⟩

theorem inOrder (hc : Call s s' held mid left txIds) (hnone : ∀ p, ¬ s'.Runnable p) :
    s.InOrder txIds := by
  intro p q hp hall hq
  have hheld : p ∈ held := by
    obtain ⟨hp, -, -⟩ := hp
    exact hc.lists.isPending_iff.mp hp
  have hq' := hc.lists.ahead_iff.mp hq
  -- the drain passes over a `MigrateIn`
  have hmid : p ∉ mid := fun hmid =>
    (hc.dealt p hmid (hc.gone_of_workable hnone hp)).1.not_hasAll hall
  obtain ⟨hqmid, hlt⟩ := (hc.pass.taken p hheld hmid).2.2 q hq'
  exact ⟨(hc.pass.taken q (hq'.2.1.subset List.mem_cons_self) hqmid).1, hlt⟩

theorem taken_of_inOrder (hc : Call s s' held mid left txIds) (horder : s.InOrder txIds)
    (hp : s.Workable p) : s.HasAll p → p ∉ mid := by
  induction hp with
  | @intro p hp hable hahead ih =>
      intro hall
      have hheld := hc.lists.isPending_iff.mp hp
      refine hc.pass.takes p hheld hall (hc.listed p hheld hall) fun q hq => ?_
      have hq' := hc.lists.ahead_iff.mpr hq
      obtain ⟨hqall, hlt⟩ := horder p q ⟨hp, hable, hahead⟩ hall hq'
      exact ⟨ih q hq' hqall, hlt⟩

/-- What is at its heads in the end could be done, were everything before it done. -/
theorem workable_of_atHeads (hc : Call s s' held mid left txIds) (hp : s'.IsPending p)
    (hhead : s'.AtHeads p) (hall : s.HasAll p) : s.Workable p := by
  have hleft := hc.lists'.isPending_iff.mp hp
  refine ⟨hc.lists.isPending_iff.mpr (hc.left_subset.subset hleft), Or.inr hall, fun q hq => ?_⟩
  have hq' := hc.lists.ahead_iff.mp hq
  refine hc.workable_of_gone (hq'.2.1.subset List.mem_cons_self) fun hqleft => ?_
  have hahead := hq'.restrict hc.lists.nodup hc.left_subset hqleft hleft
  exact (hc.lists'.atHeads_iff.mp hhead).not_ahead hc.lists'.nodup hahead

theorem not_drainable (hc : Call s s' held mid left txIds) (hp : s'.Runnable p) :
    ¬ p.Drainable := hc.idle p hp.pending hp.heads

theorem none_of_inOrder (hc : Call s s' held mid left txIds) (horder : s.InOrder txIds) :
    ∀ p, ¬ s'.Runnable p := by
  intro p hp
  have hmid := hc.sublist.subset (hc.lists'.isPending_iff.mp hp.pending)
  rcases hp.able with ⟨hl, -⟩ | ⟨owned, others, dest, hl⟩ | hall'
  · exact hc.not_drainable hp (by simp [PendingTransaction.Drainable, hl])
  · exact hc.not_drainable hp (by simp [PendingTransaction.Drainable, hl])
  · have hall := hall'.of_buffers (hc.received p hmid).symm
    exact hc.taken_of_inOrder horder (hc.workable_of_atHeads hp.pending hp.heads hall) hall hmid

theorem none_iff (hc : Call s s' held mid left txIds) :
    (∀ p, ¬ s'.Runnable p) ↔ s.InOrder txIds := ⟨hc.inOrder, hc.none_of_inOrder⟩

end Call

namespace Course

variable {cfg : Settings} {σ : Course cfg} {h : State ℕ ℕ} {e : ℕ}
  {rest : Multiset StateTransferRequest} {s : Executor}

/-- The drain, on the list of the pending transactions. -/
theorem drain_call {iter : Iteration} {worklist : List ℕ} {s' : Executor}
    {mid : List PendingTransaction} (hl : Lists mid s)
    (hok : Executor.drainPendingQueues cfg iter iter.fuel 0 worklist s = .ok s') :
    ∃ left, Lists left s' ∧ s'.buffers = s.buffers ∧ left.Sublist mid ∧
      ∀ p ∈ mid, p ∉ left → p.Drainable ∧
        ∀ q, Ahead PendingTransaction.enqueuedOn mid q p → q ∉ left := by
  rcases drain_ends cfg iter worklist hl.toHolds with
    ⟨s'', u, hok', hsteps, hs, -⟩ | ⟨herror, -⟩ | ⟨herror, -⟩
  · obtain rfl := Except.ok.inj (hok.symm.trans hok')
    obtain ⟨hsub, hdealt⟩ := hsteps.dealt hl.nodup
    refine ⟨u.jobs, ⟨hs.holds, fun p hp => hl.ne_nil p (hsub.subset hp)⟩, hs.buffers, hsub,
      fun p hp hgone => ?_⟩
    obtain ⟨⟨store, hready⟩, hahead⟩ := hdealt p hp hgone
    exact ⟨hready.1, hahead⟩
  · cases hok.symm.trans herror
  · cases hok.symm.trans herror

theorem receivedFor_of_buffers {s' : Executor} (h : s'.buffers = s.buffers) (id : TxID) :
    s'.receivedFor id = s.receivedFor id := by
  obtain ⟨hin, hdrained⟩ := Prod.mk.inj h
  unfold Executor.receivedFor
  rw [hin, hdrained]

/-- What has been received for a `MigrateIn` is listed. -/
theorem mem_keys_of_hasAll {p : PendingTransaction} (hp : p ∈ σ.heldBack h e) (hall : s.HasAll p) :
    p.txHeader.id ∈ (s.drainedIncomingTransfers.extend s.incomingTransfers).keys := by
  obtain ⟨j, hj, rfl⟩ := List.mem_map.mp hp
  obtain ⟨accounts, hl, hreceived⟩ := hall
  obtain ⟨-, rfl, a, ha, ho⟩ := locality_migrateIn hl
  refine AList.mem_keys.mp (TransferMap.mem_of_get_ne_nil fun hnil => ?_)
  rw [TransferMap.get_extend] at hnil
  -- it waits for something
  obtain ⟨x, hx, -⟩ := List.mem_map.mp (mem_missing.mpr ⟨ha, ho⟩)
  have hmem := hreceived x hx
  unfold Executor.receivedFor at hmem
  rw [hnil] at hmem
  cases hmem

theorem processIncomingTransfers_call {iter : Iteration}
    (hfuel : 2 * σ.tasks.length < iter.fuel) (hr : σ.Running h e rest s)
    (hidle : h.Idle σ.plan e) :
    ∃ s' mid left, Executor.processIncomingTransfers cfg iter s = .ok s' ∧
      Call s s' (σ.heldBack h e) mid left
        (iter.transfers (s.drainedIncomingTransfers.extend s.incomingTransfers).keys) := by
  have hr₀ := hr.take
  obtain ⟨unlocked, s₁, h₁, hok₁, hr₁, hin₁, hreceived₁, hpass⟩ := processAllTransfers_pass
    (iter.transfers (s.drainedIncomingTransfers.extend s.incomingTransfers).keys) [] hr₀ rfl
    ((iter.transfers_perm _).nodup_iff.mpr (AList.keys_nodup _))
    (fun id hid => hr₀.site.drained.ne_nil id
      (AList.mem_keys.mpr ((iter.transfers_perm _).mem_iff.mp hid)))
    ((State.idleBut_false.mpr hidle).mono fun _ h => h.elim)
  obtain ⟨s', h', hok, -, -, hr', hidle', -⟩ := processIncomingTransfers_spec hfuel hr hidle
  -- the drain of the accounts that were unlocked
  obtain ⟨left, hleft, hbuffers, hsub, hdealt⟩ : ∃ left, Lists left s' ∧
      s'.buffers = s₁.buffers ∧ left.Sublist (σ.heldBack h₁ e) ∧
      ∀ p ∈ σ.heldBack h₁ e, p ∉ left → p.Drainable ∧
        ∀ q, Ahead PendingTransaction.enqueuedOn (σ.heldBack h₁ e) q p → q ∉ left := by
    unfold Executor.processIncomingTransfers at hok
    simp only [bind, Except.bind, hok₁] at hok
    split at hok
    · cases hok
      exact ⟨_, hr₁.lists, rfl, .refl _, fun p hp hgone => absurd hp hgone⟩
    · exact drain_call hr₁.lists hok
  have htake : ∀ id, Executor.receivedFor { s with
      incomingTransfers := ∅
      drainedIncomingTransfers := s.drainedIncomingTransfers.extend s.incomingTransfers } id =
        s.receivedFor id := by
    intro id
    unfold Executor.receivedFor
    rw [TransferMap.get_extend, TransferMap.get_empty, List.append_nil]
  have hsame : Executor.HasAll { s with
      incomingTransfers := ∅
      drainedIncomingTransfers := s.drainedIncomingTransfers.extend s.incomingTransfers } =
        s.HasAll := by
    funext p
    exact propext ⟨fun h => h.of_buffers (htake _).symm, fun h => h.of_buffers (htake _)⟩
  rw [hsame] at hpass
  refine ⟨s', _, left, hok, hr.lists, hleft, hpass, hsub, hdealt, fun p hp hhead hdrain => ?_,
    fun p hp => ?_, fun p hp hall => ?_⟩
  · rw [hr'.lists.isPending_iff] at hp
    rw [hr'.lists.atHeads_iff] at hhead
    exact not_atHead_of_idle hr' hidle' hp hdrain hhead
  · rw [receivedFor_of_buffers hbuffers, hreceived₁ p hp, htake]
  · exact (iter.transfers_perm _).mem_iff.mpr (mem_keys_of_hasAll hp hall)

end Course

section Main

variable (cfg : Settings) (partition : Partition) (stores : ℕ → AccountStore)
  (batches : List Batch)

/-- In every state that the system reaches, `process_incoming_transfers` leaves no `Local` or
    `MigrateOut` that is runnable. It leaves nothing runnable exactly if each `MigrateIn` that
    could be dealt with, were everything before it dealt with that could be, has before it only
    such `MigrateIn`s, with ids that the loop comes to earlier. -/
theorem work_conserved_iff (hstart : Startable cfg partition stores batches)
    (hstay : SelfPaymentsStay cfg partition batches) (events : List Event)
    (henough : ∀ event ∈ events, event.Enough batches) {e : ℕ} (he : e < cfg.numExecutors)
    {iter : Iteration} (hiter : (Event.process e iter).Enough batches) :
    ∃ sys s', System.run cfg batches (System.initial partition stores) events = .ok sys ∧
      (sys.executors e).processIncomingTransfers cfg iter = .ok s' ∧
      (∀ p, s'.Runnable p → ¬ p.Drainable) ∧
      ((∀ p, ¬ s'.Runnable p) ↔ (sys.executors e).InOrder
        (iter.transfers ((sys.executors e).drainedIncomingTransfers.extend
          (sys.executors e).incomingTransfers).keys)) := by
  obtain ⟨σ, sys, h, hok, hi, -, -, htasks⟩ :=
    reach_stays cfg partition stores batches hstart hstay events henough
  have hfuel : 2 * σ.tasks.length < iter.fuel := by
    rw [Course.length_tasks_of_map htasks]
    exact hiter
  obtain ⟨s', mid, left, hprocess, hcall⟩ :=
    Course.processIncomingTransfers_call hfuel (hi.running he) (hi.idle e he)
  exact ⟨sys, s', hok, hprocess, fun p hp => hcall.not_drainable hp, hcall.none_iff⟩

end Main

/-! ### A transfer that has to wait for another call -/

namespace ConservationSample

open AgreementSample DrainSample

/-- Account 0 is with executor 0, accounts 1 and 2 are with executor 1. -/
def partition : Partition := fun a => if a < 3 then some (min a 1) else none

def stores (e : ℕ) : AccountStore := fun a =>
  if partition a = some e then some ⟨100, 100⟩ else none

/-- From account 0 to account 2, as transaction 2. -/
def laterPayment : Bytes := List.replicate 9 0 ++ [2] ++ List.replicate 15 0 ++ [2, 4] ++
  List.replicate 8 0

/-- Account 0 pays account 1, receives a deposit and pays account 2. -/
def batches : List Batch := [⟨[7], [payment, deposit 1 0, laterPayment]⟩]

def iteration : Iteration := { (default : Iteration) with fuel := 7 }

/-- Accounts 1 and 2 arrive at executor 0. -/
def events : List Event :=
  [.batch 0 iteration, .batch 1 iteration, .send 1, .send 1, .deliver 0, .deliver 0]

def process : Except Panic Executor := do
  let sys ← System.run settings batches (System.initial partition stores) events
  (sys.executors 0).processIncomingTransfers settings iteration

/-- The first transaction on account 2 waits for nothing. -/
def waits (s : Executor) : Bool :=
  match s.queueOf 2 with
  | [] => false
  | p :: _ => p.locality = .migrateIn [(2, 1)] && p.enqueuedOn = [0, 2] &&
      (s.queueOf 0).head? = some p &&
      ((s.receivedFor p.txHeader.id).map StateTransfer.srcAccountId).contains 2

theorem waits_process : (process.map waits).toOption = some true := by
  decide +kernel

theorem runnable_of_waits {s : Executor} (h : waits s = true) : ∃ p, s.Runnable p := by
  unfold waits at h
  split at h
  · cases h
  · rename_i p later hq
    simp only [Bool.and_eq_true, decide_eq_true_eq, List.contains_iff_mem] at h
    obtain ⟨⟨⟨hl, hon⟩, hhead⟩, hreceived⟩ := h
    refine ⟨p, ⟨2, hq ▸ List.mem_cons_self⟩, fun a ha => ?_, Or.inr (Or.inr ⟨_, hl, ?_⟩)⟩
    · rw [hon] at ha
      rcases List.mem_pair.mp ha with rfl | rfl
      · exact hhead
      · rw [hq]
        rfl
    · intro x hx
      rwa [List.mem_singleton.mp hx]

theorem wellFormed_batches : ∀ b ∈ batches, ∀ tx ∈ b.transactions, WellFormed partition tx := by
  intro b hb tx htx
  rw [List.mem_singleton.mp hb] at htx
  have known : ∀ a < 3, (partition a).isSome := fun a ha => by simp [partition, ha]
  rcases List.mem_cons.mp htx with rfl | htx
  · exact ⟨_, rfl, fun a ha => known a (by revert a; decide), by decide⟩
  · rcases List.mem_pair.mp htx with rfl | rfl
    · exact ⟨_, rfl, fun a ha => known a (by revert a; decide), by decide⟩
    · exact ⟨_, rfl, fun a ha => known a (by revert a; decide), by decide⟩

theorem startable : Startable settings partition stores batches where
  owned a e he := by
    unfold partition at he
    split at he
    · rw [Option.mem_some_iff] at he
      show e < 2
      omega
    · cases he
  stores e a := by
    unfold stores
    split <;> simp_all
  parses b hb tx htx := (wellFormed_batches b hb tx htx).parses
  distinct := by decide

theorem stays : SelfPaymentsStay settings partition batches := by
  refine SelfPaymentsStay.of_nodup fun b hb tx htx sbTx hparse => ?_
  obtain ⟨sbTx', hparse', -, hdest⟩ := wellFormed_batches b hb tx htx
  rw [hparse] at hparse'
  obtain rfl := Option.some.inj hparse'
  exact nodup_requiredAccounts hdest

theorem enough : ∀ event ∈ events, event.Enough batches := by
  simp [events, Event.Enough]

theorem enough_process : (Event.process 0 iteration).Enough batches := by
  show 2 * 3 < 7
  decide

end ConservationSample

open AgreementSample ConservationSample

theorem work_conserved_iff_sample :
    ∃ sys s', System.run settings ConservationSample.batches
        (System.initial ConservationSample.partition ConservationSample.stores)
        ConservationSample.events = .ok sys ∧
      (sys.executors 0).processIncomingTransfers settings ConservationSample.iteration = .ok s' ∧
      (∀ p, s'.Runnable p → ¬ p.Drainable) ∧
      ((∀ p, ¬ s'.Runnable p) ↔ (sys.executors 0).InOrder
        (((sys.executors 0).drainedIncomingTransfers.extend
          (sys.executors 0).incomingTransfers).keys)) :=
  work_conserved_iff settings ConservationSample.partition ConservationSample.stores
    ConservationSample.batches ConservationSample.startable stays ConservationSample.events
    ConservationSample.enough (by decide) enough_process

/-- The deposit is executed by the drain, and then the second payment has to wait. -/
theorem not_work_conserved :
    ¬ ∀ (cfg : Settings) (partition : Partition) (stores : ℕ → AccountStore)
        (batches : List Batch), Startable cfg partition stores batches →
        SelfPaymentsStay cfg partition batches →
        ∀ events : List Event, (∀ event ∈ events, event.Enough batches) →
          ∀ e < cfg.numExecutors, ∀ iter, (Event.process e iter).Enough batches →
            ∃ sys s', System.run cfg batches (System.initial partition stores) events = .ok sys ∧
              (sys.executors e).processIncomingTransfers cfg iter = .ok s' ∧
              ∀ p, ¬ s'.Runnable p := by
  intro h
  obtain ⟨sys, s', hrun, hprocess, hnone⟩ := h settings _ _ _ ConservationSample.startable stays
    ConservationSample.events ConservationSample.enough 0 (by decide) _ enough_process
  have hwaits := waits_process
  unfold process at hwaits
  rw [hrun] at hwaits
  simp only [bind, Except.bind, hprocess] at hwaits
  obtain ⟨p, hp⟩ := runnable_of_waits (Option.some.inj hwaits)
  exact hnone p hp

end DagBft.Fusion
