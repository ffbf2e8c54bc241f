/-
  Each `BatchExecutor` computes the schedule of all of them on its own.

  `schedule_ok`: loop 1 of `execute_batch` gets through every batch of well-formed
  transactions, and sends each of them to an executor that exists. `Runs` is one executor
  taking batches, whatever it receives in between. `schedules_agree`: all executors that
  start from the same partition hold the same partition after every batch and send each
  transaction to the same executor; there it is executed, and what this executor waits
  for is what the others release.
-/
import DagBft.Fusion.Executor
import DagBft.Lib.Runs

namespace DagBft.Fusion

open Worker

/-! ## Well-formed transactions -/

/-- A transaction that parses, over accounts of the partition, and not a payment of an
    account to itself. -/
def WellFormed (partition : Partition) (txBytes : Bytes) : Prop :=
  ∃ sbTx, parseSmallbankPayload txBytes = some sbTx ∧
    (∀ a ∈ sbTx.requiredAccounts, (partition a).isSome) ∧
    (sbTx.txType = .sendPayment → sbTx.destAccountId ≠ sbTx.accountId)

/-- A transaction that parses, over accounts of the partition. -/
def Parses (partition : Partition) (txBytes : Bytes) : Prop :=
  ∃ sbTx, parseSmallbankPayload txBytes = some sbTx ∧
    ∀ a ∈ sbTx.requiredAccounts, (partition a).isSome

/-- The executors of the partition exist. -/
def Partition.Owned (partition : Partition) (n : ℕ) : Prop := ∀ a, ∀ e ∈ partition a, e < n

/-- What loop 1 makes of a transaction that parses. -/
structure Scheduled.Good (partition : Partition) (n : ℕ) (tx : Scheduled) : Prop where
  header : TransactionHeader.parse tx.txBytes = some tx.header
  required : ∃ sbTx, parseSmallbankPayload tx.txBytes = some sbTx ∧
    tx.requiredAccounts = sbTx.requiredAccounts
  known : ∀ a ∈ tx.requiredAccounts, (partition a).isSome
  target_lt : tx.target < n

theorem requiredAccounts_ne_nil (sbTx : SmallBankTransaction) : sbTx.requiredAccounts ≠ [] := by
  unfold SmallBankTransaction.requiredAccounts
  split
  · simp
  · simp

theorem nodup_requiredAccounts {sbTx : SmallBankTransaction}
    (h : sbTx.txType = .sendPayment → sbTx.destAccountId ≠ sbTx.accountId) :
    sbTx.requiredAccounts.Nodup := by
  unfold SmallBankTransaction.requiredAccounts
  split
  · rename_i htype
    simpa using (h htype).symm
  · simp

theorem parse_of_payload {txBytes : Bytes} {sbTx : SmallBankTransaction}
    (h : parseSmallbankPayload txBytes = some sbTx) :
    ∃ header, TransactionHeader.parse txBytes = some header := by
  unfold parseSmallbankPayload at h
  split at h
  · cases h
  · rename_i hlen
    unfold TransactionHeader.parse
    rw [if_neg (by omega)]
    exact ⟨_, rfl⟩

/-- The order in which the elements were inserted. -/
instance : Inhabited Iteration :=
  ⟨⟨fun _ votes => votes, id, fun _ => 0, 0, fun _ _ => List.Perm.refl _,
    fun _ => List.Perm.refl _⟩⟩

section Schedule

variable {partition : Partition} {n : ℕ}

theorem Parses.of_isSome {partition' : Partition} {txBytes : Bytes} (h : Parses partition txBytes)
    (hsome : ∀ a, (partition a).isSome → (partition' a).isSome) : Parses partition' txBytes := by
  obtain ⟨sbTx, hparse, hknown⟩ := h
  exact ⟨sbTx, hparse, fun a ha => hsome a (hknown a ha)⟩

theorem WellFormed.parses {txBytes : Bytes} (h : WellFormed partition txBytes) :
    Parses partition txBytes := by
  obtain ⟨sbTx, hparse, hknown, -⟩ := h
  exact ⟨sbTx, hparse, hknown⟩

theorem WellFormed.nodup {tx : Scheduled} (h : WellFormed partition tx.txBytes)
    {partition' : Partition} (hgood : tx.Good partition' n) : tx.requiredAccounts.Nodup := by
  obtain ⟨sbTx, hparse, -, hdest⟩ := h
  obtain ⟨sbTx', hparse', hreq⟩ := hgood.required
  rw [hparse] at hparse'
  rw [hreq, ← Option.some.inj hparse']
  exact nodup_requiredAccounts hdest

/-- A transaction that parses and goes to an executor that exists. -/
theorem Parses.good {txBytes : Bytes} {sbTx : SmallBankTransaction}
    {header : TransactionHeader} {target : ℕ}
    (hparse : parseSmallbankPayload txBytes = some sbTx)
    (hheader : TransactionHeader.parse txBytes = some header)
    (hknown : ∀ a ∈ sbTx.requiredAccounts, (partition a).isSome) (htarget : target < n) :
    Scheduled.Good partition n ⟨txBytes, header, sbTx.requiredAccounts, target⟩ :=
  ⟨hheader, ⟨sbTx, hparse, rfl⟩, hknown, htarget⟩

theorem scheduleStatic_ok {transactions : List Bytes} (howned : partition.Owned n)
    (hparses : ∀ tx ∈ transactions, Parses partition tx) :
    ∃ txs, scheduleStatic partition transactions = .ok txs ∧
      txs.map Scheduled.txBytes = transactions ∧ ∀ tx ∈ txs, tx.Good partition n := by
  induction transactions with
  | nil => exact ⟨[], rfl, rfl, by simp⟩
  | cons txBytes transactions ih =>
      rw [List.forall_mem_cons] at hparses
      obtain ⟨⟨sbTx, hparse, hknown⟩, hparses⟩ := hparses
      obtain ⟨txs, hok, hmap, hgood⟩ := ih hparses
      obtain ⟨header, hheader⟩ := parse_of_payload hparse
      -- the target is the owner of the first account
      have hmem : sbTx.requiredAccounts.headD 0 ∈ sbTx.requiredAccounts := by
        cases h : sbTx.requiredAccounts with
        | nil => exact absurd h (requiredAccounts_ne_nil sbTx)
        | cons a l => simp
      obtain ⟨target, htarget⟩ := Option.isSome_iff_exists.mp (hknown _ hmem)
      refine ⟨⟨txBytes, header, sbTx.requiredAccounts, target⟩ :: txs, ?_, by simp [hmap], ?_⟩
      · simp only [scheduleStatic, hheader, extractRequiredAccounts, hparse,
          getExecutorIdByPartition, htarget, hok, bind, Except.bind]
      · rw [List.forall_mem_cons]
        exact ⟨Parses.good hparse hheader hknown (howned _ _ htarget), hgood⟩

/-! ## The dynamic scheduler -/

theorem mem_addVote {votes : List (ℕ × ℕ)} {owner : ℕ} {x : ℕ × ℕ} (h : x ∈ addVote votes owner) :
    x.1 = owner ∨ x ∈ votes := by
  induction votes with
  | nil => simp_all [addVote]
  | cons v votes ih =>
      obtain ⟨e, score⟩ := v
      unfold addVote at h
      split at h
      · rename_i he
        rcases List.mem_cons.mp h with rfl | hmem
        · exact Or.inl he
        · exact Or.inr (List.mem_cons_of_mem _ hmem)
      · rcases List.mem_cons.mp h with rfl | hmem
        · exact Or.inr List.mem_cons_self
        · exact (ih hmem).imp_right (List.mem_cons_of_mem _)

theorem countVotes_ok {localUpdates : Partition} {accounts : List ℕ} (votes : List (ℕ × ℕ))
    (howned : partition.Owned n) (hlocal : localUpdates.Owned n)
    (hknown : ∀ a ∈ accounts, (partition a).isSome) (hvotes : ∀ x ∈ votes, x.1 < n) :
    ∃ votes', countVotes partition localUpdates accounts votes = .ok votes' ∧
      ∀ x ∈ votes', x.1 < n := by
  induction accounts generalizing votes with
  | nil => exact ⟨votes, rfl, hvotes⟩
  | cons account accounts ih =>
      rw [List.forall_mem_cons] at hknown
      have hsome : ((localUpdates account).or (partition account)).isSome := by
        rw [Option.isSome_or, hknown.1, Bool.or_true]
      obtain ⟨owner, howner⟩ := Option.isSome_iff_exists.mp hsome
      have hlt : owner < n := by
        rcases Option.or_eq_some_iff.mp howner with h | ⟨-, h⟩
        · exact hlocal _ _ h
        · exact howned _ _ h
      unfold countVotes
      rw [howner]
      refine ih (addVote votes owner) hknown.2 fun x hx => ?_
      rcases mem_addVote hx with h | h
      · exact h ▸ hlt
      · exact hvotes x h

theorem stepVote_lt {maxAllowed : ℕ} {load : ℕ → ℕ} {votes : List (ℕ × ℕ)} {best : Option (ℕ × ℕ)}
    (hvotes : ∀ x ∈ votes, x.1 < n) (hbest : ∀ b ∈ best, b.2 < n) :
    ∀ b ∈ votes.foldl (stepVote maxAllowed load) best, b.2 < n := by
  induction votes generalizing best with
  | nil => exact hbest
  | cons x votes ih =>
      rw [List.forall_mem_cons] at hvotes
      refine ih hvotes.2 fun b hb => ?_
      unfold stepVote at hb
      grind

theorem bestExecutor_ok (maxAllowed : ℕ) {loads : List ℕ} {votes : List (ℕ × ℕ)}
    (hvotes : ∀ x ∈ votes, x.1 < loads.length) :
    ∃ best, bestExecutor maxAllowed loads votes = .ok best ∧ ∀ e ∈ best, e < loads.length := by
  rw [bestExecutor_eq, if_pos hvotes]
  refine ⟨_, rfl, fun e he => ?_⟩
  obtain ⟨b, hb, rfl⟩ := Option.mem_map.mp he
  exact stepVote_lt hvotes (by simp) b hb

theorem leastLoaded_ok {loads : List ℕ} (h : loads ≠ []) :
    ∃ e, leastLoaded loads = .ok e ∧ e < loads.length := by
  unfold leastLoaded
  cases hmin : loads.min? with
  | none => exact absurd (List.min?_eq_none_iff.mp hmin) h
  | some load => exact ⟨_, rfl, List.idxOf_lt_length_of_mem (List.min?_mem hmin)⟩

theorem scheduleDynamic_ok (iter : Iteration) {maxAllowed : ℕ} {transactions : List Bytes}
    {i : ℕ} {localUpdates : Partition} {loads : List ℕ} (howned : partition.Owned n)
    (hlocal : localUpdates.Owned n) (hloads : loads.length = n)
    (hparses : ∀ tx ∈ transactions, Parses partition tx) :
    ∃ txs, scheduleDynamic iter maxAllowed partition i localUpdates loads transactions = .ok txs ∧
      txs.map Scheduled.txBytes = transactions ∧ ∀ tx ∈ txs, tx.Good partition n := by
  induction transactions generalizing i localUpdates loads with
  | nil => exact ⟨[], rfl, rfl, by simp⟩
  | cons txBytes transactions ih =>
      rw [List.forall_mem_cons] at hparses
      obtain ⟨⟨sbTx, hparse, hknown⟩, hparses⟩ := hparses
      obtain ⟨header, hheader⟩ := parse_of_payload hparse
      obtain ⟨votes, hcount, hvotes⟩ :=
        countVotes_ok [] howned hlocal hknown (by simp)
      have hbounds : ∀ x ∈ iter.votes i votes, x.1 < loads.length := fun x hx =>
        hloads ▸ hvotes x ((iter.votes_perm i votes).mem_iff.mp hx)
      obtain ⟨best, hbest, hbestlt⟩ := bestExecutor_ok maxAllowed hbounds
      -- there are executors, as there are accounts
      have hne : loads ≠ [] := by
        obtain ⟨a, ha⟩ := List.exists_mem_of_ne_nil _ (requiredAccounts_ne_nil sbTx)
        obtain ⟨e, he⟩ := Option.isSome_iff_exists.mp (hknown a ha)
        have := howned a e he
        rintro rfl
        simp at hloads
        omega
      have htarget : ∃ target, best.elim (leastLoaded loads) Except.ok = .ok target ∧
          target < loads.length := by
        cases best with
        | none => exact leastLoaded_ok hne
        | some e => exact ⟨e, rfl, hbestlt e rfl⟩
      obtain ⟨target, htarget, hlt⟩ := htarget
      have hupdates : Partition.Owned
          (fun a => if a ∈ sbTx.requiredAccounts then some target else localUpdates a) n := by
        intro a e he
        dsimp only at he
        split at he
        · rw [Option.mem_some_iff] at he
          omega
        · exact hlocal a e he
      have hlength : (loads.set target (loads.getD target 0 + 1)).length = n := by
        simpa using hloads
      obtain ⟨txs, hok, hmap, hgood⟩ := ih (i := i + 1) hupdates hlength hparses
      refine ⟨⟨txBytes, header, sbTx.requiredAccounts, target⟩ :: txs, ?_, by simp [hmap], ?_⟩
      · unfold scheduleDynamic
        simp only [hheader, extractRequiredAccounts, hparse, hcount, hbest, bind, Except.bind]
        cases best with
        | none =>
            simp only [Option.elim_none] at htarget
            simp only [htarget, loadOf_eq, hlt, if_true, hok]
        | some e =>
            simp only [Option.elim_some, Except.ok.injEq] at htarget
            simp only [htarget, loadOf_eq, hlt, if_true, hok]
      · rw [List.forall_mem_cons]
        exact ⟨Parses.good hparse hheader hknown (hloads ▸ hlt), hgood⟩

/-- Loop 1 before the localities: every transaction is scheduled. -/
theorem parseAndSchedule_ok (cfg : Settings) (iter : Iteration) {transactions : List Bytes}
    (howned : partition.Owned cfg.numExecutors)
    (hparses : ∀ tx ∈ transactions, Parses partition tx) :
    ∃ txs, parseAndScheduleBatchTransactions cfg iter partition transactions = .ok txs ∧
      txs.map Scheduled.txBytes = transactions ∧
      ∀ tx ∈ txs, tx.Good partition cfg.numExecutors := by
  unfold parseAndScheduleBatchTransactions
  split
  · exact scheduleDynamic_ok iter howned (fun a e he => by cases he) (by simp) hparses
  · exact scheduleStatic_ok howned hparses

/-! ## The partition after some transactions -/

theorem Partition.isSome_movedBy {txs : List Scheduled}
    (hknown : ∀ tx ∈ txs, ∀ a ∈ tx.requiredAccounts, (partition a).isSome) (a : ℕ) :
    (partition.movedBy txs a).isSome ↔ (partition a).isSome := by
  induction txs generalizing partition with
  | nil => rfl
  | cons tx txs ih =>
      rw [List.forall_mem_cons] at hknown
      unfold Partition.movedBy at ih ⊢
      rw [List.foldl_cons, ih, Partition.isSome_move]
      · exact or_iff_right_of_imp (hknown.1 a)
      · exact fun tx' htx' b hb => Partition.isSome_move.mpr (Or.inr (hknown.2 tx' htx' b hb))

theorem Partition.owned_movedBy {txs : List Scheduled} (howned : partition.Owned n)
    (htarget : ∀ tx ∈ txs, tx.target < n) : (partition.movedBy txs).Owned n := by
  induction txs generalizing partition with
  | nil => exact howned
  | cons tx txs ih =>
      rw [List.forall_mem_cons] at htarget
      refine ih (fun a e he => ?_) htarget.2
      simp only [Partition.move] at he
      split at he
      · rw [Option.mem_some_iff] at he
        exact he ▸ htarget.1
      · exact howned a e he

/-- Loop 1 of `execute_batch` on transactions that parse. -/
theorem schedule_ok (cfg : Settings) {transactions : List Bytes}
    (howned : partition.Owned cfg.numExecutors)
    (hparses : ∀ tx ∈ transactions, Parses partition tx) :
    ∃ txs : List Scheduled, txs.map Scheduled.txBytes = transactions ∧
      (∀ tx ∈ txs, tx.Good partition cfg.numExecutors) ∧
      ∀ (iter : Iteration) (s : Executor), s.statesSchedulePartition = partition →
        s.beginBatch cfg iter transactions =
          .ok (localitiesOf s.executorId partition txs,
            { s with statesSchedulePartition := partition.movedBy txs }) := by
  obtain ⟨txs, hok, hmap, hgood⟩ := parseAndSchedule_ok cfg default howned hparses
  refine ⟨txs, hmap, hgood, fun iter s hs => ?_⟩
  have hloc : scheduleLocalities s.executorId partition txs = .ok _ :=
    scheduleLocalities_eq_ok.mpr ⟨fun tx htx => (hgood tx htx).known, rfl⟩
  unfold Executor.beginBatch
  rw [hs, parseAndSchedule_iter cfg iter default, hok]
  simp only [hloc, bind, Except.bind]

/-! ## Localities by position -/

theorem Scheduled.Good.of_isSome {partition' : Partition} {tx : Scheduled}
    (h : tx.Good partition n) (hsome : ∀ a, (partition a).isSome → (partition' a).isSome) :
    tx.Good partition' n :=
  ⟨h.header, h.required, fun a ha => hsome a (h.known a ha), h.target_lt⟩

theorem Partition.movedBy_append (txs txs' : List Scheduled) :
    partition.movedBy (txs ++ txs') = (partition.movedBy txs).movedBy txs' :=
  List.foldl_append

theorem localitiesOf_getElem? (e : ℕ) (txs : List Scheduled) (i : ℕ) :
    (localitiesOf e partition txs)[i]? = txs[i]?.map fun tx =>
      (tx, localityOf e (partition.movedBy (txs.take i)) tx.requiredAccounts tx.target) := by
  induction txs generalizing partition i with
  | nil => simp [localitiesOf]
  | cons tx txs ih =>
      cases i with
      | zero => simp [localitiesOf, Partition.movedBy]
      | succ i =>
          simp only [localitiesOf, List.getElem?_cons_succ, ih]
          rfl

theorem map_fst_localitiesOf (e : ℕ) (txs : List Scheduled) :
    (localitiesOf e partition txs).map Prod.fst = txs := by
  induction txs generalizing partition with
  | nil => rfl
  | cons tx txs ih => rw [localitiesOf, List.map_cons, ih]

end Schedule

/-! ## Who executes and who waits -/

namespace TransactionLocality

/-- The executor runs the transaction. -/
def executes : TransactionLocality → Bool
  | .local => true
  | .migrateIn _ => true
  | _ => false

/-- The accounts that the executor waits for. -/
def awaits : TransactionLocality → List ℕ
  | .migrateIn accounts => accounts.map Prod.fst
  | _ => []

/-- The accounts that the executor sends to `dest`. -/
def releases (dest : ℕ) : TransactionLocality → List ℕ
  | .migrateOut owned _ dest' => if dest' = dest then owned else []
  | _ => []

end TransactionLocality

section Locality

open TransactionLocality

variable {partition : Partition} {accounts : List ℕ} {target e n : ℕ}

theorem executes_localityOf :
    (localityOf e partition accounts target).executes = true ↔ e = target := by
  unfold localityOf
  dsimp only
  split
  · rename_i h
    subst h
    split
    · simp [executes]
    · simp [executes]
  · rename_i h
    split
    · simp [executes, Ne.symm h]
    · simp [executes, Ne.symm h]

theorem mem_awaits_localityOf {a : ℕ} :
    a ∈ (localityOf target partition accounts target).awaits ↔
      a ∈ accounts ∧ partition.ownerD a ≠ target := by
  unfold localityOf
  rw [if_pos rfl]
  split
  · rename_i h
    rw [List.filter_eq_nil_iff] at h
    simpa [awaits] using h a
  · simp [awaits]

theorem releases_localityOf : (localityOf e partition accounts target).releases target =
    if e = target then [] else accounts.filter fun a => partition.ownerD a = e := by
  unfold localityOf
  by_cases h : target = e
  · subst h
    rw [if_pos rfl, if_pos rfl]
    split
    · rfl
    · rfl
  · rw [if_neg h, if_neg (Ne.symm h)]
    split
    · rename_i hmine
      rw [hmine]
      rfl
    · simp [releases]

/-- What the target waits for is the disjoint union of what the others send to it. -/
theorem awaits_perm (hnodup : accounts.Nodup) (howner : ∀ a ∈ accounts, partition.ownerD a < n) :
    (localityOf target partition accounts target).awaits.Nodup ∧
      (localityOf target partition accounts target).awaits.Perm ((List.range n).flatMap fun e =>
        (localityOf e partition accounts target).releases target) := by
  have hawaits : (localityOf target partition accounts target).awaits.Nodup := by
    unfold localityOf
    rw [if_pos rfl]
    split
    · simp [awaits]
    · simpa [awaits, Function.comp_def] using hnodup.filter _
  refine ⟨hawaits, (List.perm_ext_iff_of_nodup hawaits ?_).mpr fun a => ?_⟩
  · rw [List.nodup_flatMap]
    refine ⟨fun e _ => ?_, List.nodup_range.imp fun {e e'} hne a ha ha' => hne ?_⟩
    · rw [releases_localityOf]
      split
      · exact List.nodup_nil
      · exact hnodup.filter _
    · -- an account has one owner
      simp only [releases_localityOf] at ha ha'
      split at ha
      · cases ha
      · split at ha'
        · cases ha'
        · simp only [List.mem_filter, decide_eq_true_eq] at ha ha'
          exact ha.2.symm.trans ha'.2
  · rw [mem_awaits_localityOf, List.mem_flatMap]
    simp only [releases_localityOf]
    constructor
    · rintro ⟨ha, hne⟩
      refine ⟨partition.ownerD a, List.mem_range.mpr (howner a ha), ?_⟩
      rw [if_neg hne]
      simpa using ha
    · rintro ⟨e, -, hmem⟩
      split at hmem
      · cases hmem
      · rename_i hne
        simp only [List.mem_filter, decide_eq_true_eq] at hmem
        exact ⟨hmem.1, hmem.2 ▸ hne⟩

end Locality

/-! ## Executing leaves the schedule alone -/

namespace Executor

/-- The same executor with the same partition. -/
structure Keeps (s t : Executor) : Prop where
  executorId : t.executorId = s.executorId
  partition : t.statesSchedulePartition = s.statesSchedulePartition

theorem Keeps.refl (s : Executor) : Keeps s s := ⟨rfl, rfl⟩

theorem Keeps.trans {s t u : Executor} (h : Keeps s t) (h' : Keeps t u) : Keeps s u :=
  ⟨h'.executorId.trans h.executorId, h'.partition.trans h.partition⟩

variable {cfg : Settings} {iter : Iteration} {s t : Executor}

theorem keeps_popTransactionFromAccounts {accounts : List ℕ} {txId : TxID}
    {r : PendingTransaction × Executor} (h : s.popTransactionFromAccounts accounts txId = .ok r) :
    Keeps s r.2 := by
  unfold popTransactionFromAccounts at h
  obtain ⟨⟨queues, pending⟩, -, h⟩ := bind_eq_ok.mp h
  cases pending with
  | none => cases h
  | some tx =>
      cases h
      exact ⟨rfl, rfl⟩

theorem keeps_lockAndEnqueueTransaction {digest txBytes : Bytes} {header : TransactionHeader}
    {accounts : List ℕ} {locality : TransactionLocality}
    (h : s.lockAndEnqueueTransaction digest txBytes header accounts locality = .ok t) :
    Keeps s t := by
  unfold lockAndEnqueueTransaction at h
  split at h
  · cases h
  · cases locality <;> cases h <;> exact ⟨rfl, rfl⟩

theorem keeps_executeSingleLocalTransaction {digest txBytes : Bytes} {header : TransactionHeader}
    (h : executeSingleLocalTransaction cfg s digest txBytes header = .ok t) : Keeps s t := by
  unfold executeSingleLocalTransaction at h
  dsimp only at h
  split at h
  · cases h
    exact ⟨rfl, rfl⟩
  · obtain ⟨⟨store, success⟩, -, h⟩ := bind_eq_ok.mp h
    dsimp only at h
    split at h
    · split at h
      · cases h
        exact ⟨rfl, rfl⟩
      · cases h
        exact ⟨rfl, rfl⟩
    · cases h
      exact ⟨rfl, rfl⟩

theorem keeps_executeMigrateOut {txId : TxID} {dest : ℕ} {accounts : List ℕ}
    (h : executeMigrateOut txId dest accounts s = .ok t) : Keeps s t := by
  induction accounts generalizing s with
  | nil =>
      cases h
      exact Keeps.refl _
  | cons account accounts ih =>
      unfold executeMigrateOut at h
      split at h
      · cases h
      · obtain ⟨hid, hpart⟩ := ih h
        exact ⟨hid, hpart⟩

theorem keeps_drainAccount {account fuel : ℕ} {worklist : List ℕ} {r : List ℕ × Executor}
    (h : drainAccount cfg account fuel worklist s = .ok r) : Keeps s r.2 := by
  induction fuel generalizing worklist s with
  | zero => cases h
  | succ fuel ih =>
      unfold drainAccount at h
      obtain ⟨head, -, h⟩ := bind_eq_ok.mp h
      split at h
      · cases h
        exact Keeps.refl _
      · split at h
        · obtain ⟨⟨pending, s₁⟩, hpop, h⟩ := bind_eq_ok.mp h
          obtain ⟨s₂, hout, h⟩ := bind_eq_ok.mp h
          exact (keeps_popTransactionFromAccounts hpop).trans
            ((keeps_executeMigrateOut hout).trans (ih h))
        · obtain ⟨⟨pending, s₁⟩, hpop, h⟩ := bind_eq_ok.mp h
          obtain ⟨s₂, hexec, h⟩ := bind_eq_ok.mp h
          exact (keeps_popTransactionFromAccounts hpop).trans
            ((keeps_executeSingleLocalTransaction hexec).trans (ih h))
        · cases h

theorem keeps_drainPendingQueues {fuel i : ℕ} {worklist : List ℕ}
    (h : drainPendingQueues cfg iter fuel i worklist s = .ok t) : Keeps s t := by
  induction fuel generalizing i worklist s with
  | zero =>
      cases worklist with
      | nil =>
          cases h
          exact Keeps.refl _
      | cons account worklist => cases h
  | succ fuel ih =>
      cases worklist with
      | nil =>
          cases h
          exact Keeps.refl _
      | cons account worklist =>
          unfold drainPendingQueues at h
          obtain ⟨⟨worklist', s₁⟩, hdrain, h⟩ := bind_eq_ok.mp h
          obtain ⟨hid, hpart⟩ := ih h
          exact (keeps_drainAccount hdrain).trans ⟨hid, hpart⟩

theorem keeps_processTransfers {txId : TxID} {unlocked : List ℕ} {r : List ℕ × Executor}
    (h : processTransfers cfg txId unlocked s = .ok r) : Keeps s r.2 := by
  unfold processTransfers at h
  split at h
  · cases h
  · split at h
    · split at h
      · cases h
        exact Keeps.refl _
      · split at h
        · split at h
          · cases h
            exact Keeps.refl _
          · obtain ⟨atHeads, -, h⟩ := bind_eq_ok.mp h
            split at h
            · cases h
              exact Keeps.refl _
            · dsimp only at h
              split at h
              · obtain ⟨⟨pending, s₁⟩, hpop, h⟩ := bind_eq_ok.mp h
                obtain ⟨s₂, hexec, h⟩ := bind_eq_ok.mp h
                cases h
                have hpop' := keeps_popTransactionFromAccounts hpop
                have hexec' := keeps_executeSingleLocalTransaction hexec
                exact ⟨hexec'.executorId.trans hpop'.executorId,
                  hexec'.partition.trans hpop'.partition⟩
              · cases h
                exact Keeps.refl _
        · cases h
    · cases h
      exact Keeps.refl _

theorem keeps_processAllTransfers {txIds : List TxID} {unlocked : List ℕ} {r : List ℕ × Executor}
    (h : processAllTransfers cfg txIds unlocked s = .ok r) : Keeps s r.2 := by
  induction txIds generalizing unlocked s with
  | nil =>
      cases h
      exact Keeps.refl _
  | cons txId txIds ih =>
      unfold processAllTransfers at h
      obtain ⟨⟨unlocked', s₁⟩, hfirst, h⟩ := bind_eq_ok.mp h
      exact (keeps_processTransfers hfirst).trans (ih h)

theorem keeps_processIncomingTransfers (h : s.processIncomingTransfers cfg iter = .ok t) :
    Keeps s t := by
  unfold processIncomingTransfers at h
  obtain ⟨⟨unlocked, s₁⟩, hall, h⟩ := bind_eq_ok.mp h
  have hkeeps : Keeps s s₁ := ⟨(keeps_processAllTransfers hall).executorId,
    (keeps_processAllTransfers hall).partition⟩
  dsimp only at h
  split at h
  · rw [← Except.ok.inj h]
    exact hkeeps
  · exact hkeeps.trans (keeps_drainPendingQueues h)

theorem keeps_handleTransactionByLocality {digest : Bytes} {tx : Scheduled × TransactionLocality}
    (h : s.handleTransactionByLocality cfg digest tx = .ok t) : Keeps s t := by
  unfold handleTransactionByLocality at h
  split at h
  · unfold handleLocalTransaction at h
    split at h
    · exact keeps_executeSingleLocalTransaction h
    · exact keeps_lockAndEnqueueTransaction h
  · unfold handleMigrateOutTransaction at h
    split at h
    · split at h
      · cases h
      · exact keeps_executeMigrateOut h
    · exact keeps_lockAndEnqueueTransaction h
  · exact keeps_lockAndEnqueueTransaction h
  · cases h
    exact Keeps.refl _

theorem keeps_handleAll {digest : Bytes} {txs : List (Scheduled × TransactionLocality)}
    (h : handleAll cfg digest txs s = .ok t) : Keeps s t := by
  induction txs generalizing s with
  | nil =>
      cases h
      exact Keeps.refl _
  | cons tx txs ih =>
      unfold handleAll at h
      obtain ⟨s₁, hfirst, h⟩ := bind_eq_ok.mp h
      exact (keeps_handleTransactionByLocality hfirst).trans (ih h)

end Executor

/-! ## Runs of one executor -/

/-- A batch as the executors get it. -/
structure Batch where
  digest : Bytes
  transactions : List Bytes

/-- What an executor makes of a batch, and the partition it holds after it. -/
structure Decision where
  localities : List (Scheduled × TransactionLocality)
  partition : Partition

/-- The transactions of the batch with the executors they go to. -/
def Decision.scheduled (d : Decision) : List Scheduled := d.localities.map Prod.fst

open Executor in
/-- An executor takes the batches in their order. `incoming` is what it has received when it
    comes to process the transfers. -/
inductive Runs (cfg : Settings) : Executor → List Batch → List Decision → Executor → Prop
  | start (s : Executor) : Runs cfg s [] [] s
  | batch {s s₁ s₂ s₃ t : Executor} {b : Batch} {batches : List Batch} {decisions : List Decision}
      {localities : List (Scheduled × TransactionLocality)} {incoming : TransferMap}
      {iter : Iteration} (hbegin : s.beginBatch cfg iter b.transactions = .ok (localities, s₁))
      (hhandle : handleAll cfg b.digest localities s₁ = .ok s₂)
      (hprocess : processIncomingTransfers cfg iter { s₂ with incomingTransfers := incoming } =
        .ok s₃)
      (hrest : Runs cfg s₃ batches decisions t) :
      Runs cfg s (b :: batches) (⟨localities, s₃.statesSchedulePartition⟩ :: decisions) t

/-- `execute_batch` is the case that nothing arrives while the batch is executed. -/
theorem runs_executeBatch {cfg : Settings} {iter : Iteration} {s t : Executor} {b : Batch}
    (h : s.executeBatch cfg iter b.digest b.transactions = .ok t) :
    ∃ decisions, Runs cfg s [b] decisions t := by
  unfold Executor.executeBatch at h
  obtain ⟨⟨localities, s₁⟩, hbegin, h⟩ := bind_eq_ok.mp h
  obtain ⟨s₂, hhandle, hprocess⟩ := bind_eq_ok.mp h
  exact ⟨_, .batch hbegin hhandle hprocess (.start t)⟩

/-- What an executor makes of batches that are scheduled already. -/
def decisionsOf (e : ℕ) : Partition → List (List Scheduled) → List Decision
  | _, [] => []
  | partition, txs :: blocks =>
      ⟨localitiesOf e partition txs, partition.movedBy txs⟩ ::
        decisionsOf e (partition.movedBy txs) blocks

theorem map_partition_decisionsOf (e e' : ℕ) (partition : Partition)
    (blocks : List (List Scheduled)) :
    (decisionsOf e partition blocks).map Decision.partition =
      (decisionsOf e' partition blocks).map Decision.partition := by
  induction blocks generalizing partition with
  | nil => rfl
  | cons txs blocks ih => rw [decisionsOf, decisionsOf, List.map_cons, List.map_cons, ih]

theorem map_scheduled_decisionsOf (e : ℕ) (partition : Partition)
    (blocks : List (List Scheduled)) :
    (decisionsOf e partition blocks).map Decision.scheduled = blocks := by
  induction blocks generalizing partition with
  | nil => rfl
  | cons txs blocks ih =>
      rw [decisionsOf, List.map_cons, ih]
      exact congrArg (· :: blocks) (map_fst_localitiesOf e txs)

theorem decisionsOf_getElem? (e : ℕ) (partition : Partition) (blocks : List (List Scheduled))
    (k : ℕ) : ((decisionsOf e partition blocks)[k]?).map Decision.localities =
      blocks[k]?.map (localitiesOf e (partition.movedBy (blocks.take k).flatten)) := by
  induction blocks generalizing partition k with
  | nil => simp [decisionsOf]
  | cons txs blocks ih =>
      cases k with
      | zero => simp [decisionsOf, Partition.movedBy]
      | succ k =>
          rw [decisionsOf, List.getElem?_cons_succ, List.getElem?_cons_succ, ih,
            List.take_succ_cons, List.flatten_cons, Partition.movedBy_append]

theorem Scheduled.Good.ownerD_lt {initial : Partition} {n : ℕ} {txs : List Scheduled}
    {tx : Scheduled} (howned : initial.Owned n) (hgood : ∀ tx ∈ txs, tx.Good initial n)
    (h : tx.Good initial n) : ∀ a ∈ tx.requiredAccounts, (initial.movedBy txs).ownerD a < n := by
  intro a ha
  have hsome : (initial.movedBy txs a).isSome :=
    (Partition.isSome_movedBy (fun tx htx => (hgood tx htx).known) a).mpr (h.known a ha)
  obtain ⟨o, ho⟩ := Option.isSome_iff_exists.mp hsome
  have hlt := Partition.owned_movedBy howned (fun tx htx => (hgood tx htx).target_lt) a o ho
  simpa [Partition.ownerD, ho] using hlt

/-- The decisions on one transaction are all made from one partition. -/
theorem decision_at {initial : Partition} {n : ℕ} {blocks : List (List Scheduled)}
    (howned : initial.Owned n) (hgood : ∀ txs ∈ blocks, ∀ tx ∈ txs, tx.Good initial n) {k i : ℕ}
    {txs : List Scheduled} {tx : Scheduled} (hk : blocks[k]? = some txs) (hi : txs[i]? = some tx) :
    ∃ before : Partition, (∀ a ∈ tx.requiredAccounts, before.ownerD a < n) ∧
      ∀ e, (decisionsOf e initial blocks)[k]?.bind (fun d => d.localities[i]?) =
        some (tx, localityOf e before tx.requiredAccounts tx.target) := by
  have hgoodk := hgood txs (List.mem_of_getElem? hk)
  refine ⟨initial.movedBy ((blocks.take k).flatten ++ txs.take i),
    Scheduled.Good.ownerD_lt howned (fun tx' hmem => ?_) (hgoodk tx (List.mem_of_getElem? hi)),
    fun e => ?_⟩
  · rcases List.mem_append.mp hmem with hmem | hmem
    · obtain ⟨txs', htxs', hmem⟩ := List.mem_flatten.mp hmem
      exact hgood txs' (List.mem_of_mem_take htxs') tx' hmem
    · exact hgoodk tx' (List.mem_of_mem_take hmem)
  · have hlocal := decisionsOf_getElem? e initial blocks k
    rw [hk] at hlocal
    obtain ⟨d, hd, hlocalities⟩ := Option.map_eq_some_iff.mp hlocal
    rw [hd, Option.bind_some, hlocalities, localitiesOf_getElem?, hi, Partition.movedBy_append]
    rfl

/-- The schedule of the batches, from a partition on: loop 1 of every executor that holds the
    partition computes it. -/
inductive Schedules (cfg : Settings) : Partition → List Batch → List (List Scheduled) → Prop
  | nil (partition : Partition) : Schedules cfg partition [] []
  | cons {partition : Partition} {b : Batch} {batches : List Batch} {txs : List Scheduled}
      {blocks : List (List Scheduled)} (hbytes : txs.map Scheduled.txBytes = b.transactions)
      (hbegin : ∀ (iter : Iteration) (s : Executor), s.statesSchedulePartition = partition →
        s.beginBatch cfg iter b.transactions = .ok (localitiesOf s.executorId partition txs,
          { s with statesSchedulePartition := partition.movedBy txs }))
      (hrest : Schedules cfg (partition.movedBy txs) batches blocks) :
      Schedules cfg partition (b :: batches) (txs :: blocks)

theorem Schedules.bytes {cfg : Settings} {partition : Partition} {batches : List Batch}
    {blocks : List (List Scheduled)} (h : Schedules cfg partition batches blocks) :
    blocks.map (List.map Scheduled.txBytes) = batches.map Batch.transactions := by
  induction h with
  | nil => rfl
  | cons hbytes _ _ ih => rw [List.map_cons, List.map_cons, hbytes, ih]

theorem exists_schedules {cfg : Settings} {batches : List Batch} {initial partition : Partition}
    (howned : partition.Owned cfg.numExecutors)
    (hsome : ∀ a, (initial a).isSome ↔ (partition a).isSome)
    (hparses : ∀ b ∈ batches, ∀ tx ∈ b.transactions, Parses initial tx) :
    ∃ blocks, Schedules cfg partition batches blocks ∧
      ∀ txs ∈ blocks, ∀ tx ∈ txs, tx.Good initial cfg.numExecutors := by
  induction batches generalizing partition with
  | nil => exact ⟨[], .nil partition, by simp⟩
  | cons b batches ih =>
      rw [List.forall_mem_cons] at hparses
      obtain ⟨txs, hbytes, hgood, hbegin⟩ := schedule_ok cfg howned fun tx htx =>
        (hparses.1 tx htx).of_isSome fun a => (hsome a).mp
      have hmoved := Partition.isSome_movedBy fun tx htx => (hgood tx htx).known
      obtain ⟨blocks, hblocks, hgoods⟩ :=
        ih (Partition.owned_movedBy howned fun tx htx => (hgood tx htx).target_lt)
          (fun a => (hsome a).trans (hmoved a).symm) hparses.2
      refine ⟨txs :: blocks, .cons hbytes hbegin hblocks, ?_⟩
      rw [List.forall_mem_cons]
      exact ⟨fun tx htx => (hgood tx htx).of_isSome fun a => (hsome a).mpr, hgoods⟩

/-- One executor on its own: whatever its store, its queues and what it receives, its decisions
    are those of the common schedule. -/
theorem Schedules.decisions {cfg : Settings} {batches : List Batch} {partition : Partition}
    {blocks : List (List Scheduled)} (h : Schedules cfg partition batches blocks) {s t : Executor}
    {decisions : List Decision} (hs : s.statesSchedulePartition = partition)
    (hrun : Runs cfg s batches decisions t) :
    decisions = decisionsOf s.executorId partition blocks ∧
      t.statesSchedulePartition = partition.movedBy blocks.flatten := by
  induction h generalizing s decisions with
  | nil partition =>
      cases hrun
      exact ⟨rfl, hs⟩
  | @cons partition b batches txs blocks hbytes hbegin hrest ih =>
      cases hrun with
      | @batch _ s₁ s₂ s₃ _ _ _ decisions localities incoming iter hb hh hp hrest =>
          rw [hbegin iter s hs] at hb
          obtain ⟨rfl, rfl⟩ := Prod.mk.inj (Except.ok.inj hb)
          have hhandle := Executor.keeps_handleAll hh
          have hprocess := Executor.keeps_processIncomingTransfers hp
          have hid : s₃.executorId = s.executorId := hprocess.executorId.trans hhandle.executorId
          have hpart : s₃.statesSchedulePartition = partition.movedBy txs :=
            hprocess.partition.trans hhandle.partition
          obtain ⟨hdecisions, ht⟩ := ih hpart hrest
          rw [hid] at hdecisions
          rw [hdecisions, hpart, List.flatten_cons, Partition.movedBy_append]
          exact ⟨rfl, ht⟩

/-- Executors that start from the same partition agree on the schedule: after every batch they
    hold the same partition, and they send every transaction to the same executor. Of all of
    them exactly this one executes the transaction, and the accounts it waits for are the
    disjoint union of the accounts that the others send to it. None of them panics in loop 1. -/
theorem schedules_agree (cfg : Settings) (initial : Partition) (batches : List Batch)
    (howned : initial.Owned cfg.numExecutors)
    (hwell : ∀ b ∈ batches, ∀ tx ∈ b.transactions, WellFormed initial tx) :
    (∀ (s s' t t' : Executor) (decisions decisions' : List Decision),
      s.statesSchedulePartition = initial → s'.statesSchedulePartition = initial →
      Runs cfg s batches decisions t → Runs cfg s' batches decisions' t' →
      decisions.map Decision.partition = decisions'.map Decision.partition ∧
        decisions.map Decision.scheduled = decisions'.map Decision.scheduled) ∧
    (∀ (s t : ℕ → Executor) (decisions : ℕ → List Decision),
      (∀ e < cfg.numExecutors, (s e).executorId = e ∧ (s e).statesSchedulePartition = initial ∧
        Runs cfg (s e) batches (decisions e) (t e)) →
      ∀ (k i : ℕ) (txBytes : Bytes),
        batches[k]?.bind (fun b : Batch => b.transactions[i]?) = some txBytes →
        ∃ (tx : Scheduled) (locality : ℕ → TransactionLocality),
          tx.txBytes = txBytes ∧ tx.target < cfg.numExecutors ∧
          (∀ e < cfg.numExecutors,
            (decisions e)[k]?.bind (fun d : Decision => d.localities[i]?) = some (tx, locality e)) ∧
          (∀ e < cfg.numExecutors, (locality e).executes = true ↔ e = tx.target) ∧
          (locality tx.target).awaits.Nodup ∧
          (locality tx.target).awaits.Perm
            ((List.range cfg.numExecutors).flatMap fun e => (locality e).releases tx.target)) ∧
    (∀ (s t : Executor) (decisions : List Decision), s.statesSchedulePartition = initial →
      Runs cfg s batches decisions t → ∀ (iter : Iteration) (transactions : List Bytes),
      (∀ tx ∈ transactions, WellFormed initial tx) →
        ∃ r, t.beginBatch cfg iter transactions = .ok r) := by
  obtain ⟨blocks, hblocks, hgood⟩ := exists_schedules howned (fun _ => Iff.rfl)
    fun b hb tx htx => (hwell b hb tx htx).parses
  have hflat : ∀ tx ∈ blocks.flatten, tx.Good initial cfg.numExecutors := by
    intro tx htx
    obtain ⟨txs, htxs, hmem⟩ := List.mem_flatten.mp htx
    exact hgood txs htxs tx hmem
  refine ⟨?_, ?_, ?_⟩
  · intro s s' t t' decisions decisions' hs hs' hrun hrun'
    rw [(hblocks.decisions hs hrun).1, (hblocks.decisions hs' hrun').1]
    refine ⟨map_partition_decisionsOf _ _ _ _, ?_⟩
    rw [map_scheduled_decisionsOf, map_scheduled_decisionsOf]
  · intro s t decisions hfamily k i txBytes htx
    obtain ⟨b, hb, htx⟩ := Option.bind_eq_some_iff.mp htx
    -- the same position of the schedule
    have hk : (blocks[k]?).map (List.map Scheduled.txBytes) = some b.transactions := by
      rw [← List.getElem?_map, hblocks.bytes, List.getElem?_map, hb]
      rfl
    obtain ⟨txs, htxs, hmap⟩ := Option.map_eq_some_iff.mp hk
    have hwellTx := hwell b (List.mem_of_getElem? hb) txBytes (List.mem_of_getElem? htx)
    rw [← hmap, List.getElem?_map] at htx
    obtain ⟨tx, hi, hbytes⟩ := Option.map_eq_some_iff.mp htx
    have htxGood := hgood txs (List.mem_of_getElem? htxs) tx (List.mem_of_getElem? hi)
    obtain ⟨before, howner, hdecision⟩ := decision_at howned hgood htxs hi
    refine ⟨tx, fun e => localityOf e before tx.requiredAccounts tx.target, hbytes,
      htxGood.target_lt, fun e he => ?_, fun e _ => executes_localityOf,
      awaits_perm (WellFormed.nodup (hbytes ▸ hwellTx) htxGood) howner⟩
    obtain ⟨hid, hs, hrun⟩ := hfamily e he
    rw [(hblocks.decisions hs hrun).1, hid]
    exact hdecision e
  · intro s t decisions hs hrun iter transactions hwell'
    obtain ⟨-, ht⟩ := hblocks.decisions hs hrun
    obtain ⟨txs, -, -, hbegin⟩ := schedule_ok cfg
      (Partition.owned_movedBy howned fun tx htx => (hflat tx htx).target_lt) fun tx htx =>
        (hwell' tx htx).parses.of_isSome fun a =>
          (Partition.isSome_movedBy fun tx htx => (hflat tx htx).known) a |>.mpr
    exact ⟨_, hbegin iter t ht⟩

section Sample

namespace AgreementSample

def settings : Settings := ⟨2, false, fun _ => none⟩

/-- Accounts 0 and 1, one with each executor. -/
def partition : Partition := fun a => if a < 2 then some a else none

/-- From account 0 to account 1: type 4 at offset 26. -/
def payment : Bytes := List.replicate 25 0 ++ [1, 4] ++ List.replicate 8 0

def batches : List Batch := [⟨[7], [payment]⟩]

def executor (e : ℕ) : Executor :=
  ⟨e, fun a => if a = e then some ⟨100, 100⟩ else none, partition, fun _ => none, ∅, ∅, [], [], []⟩

theorem owned_partition : partition.Owned 2 := by
  intro a e he
  unfold partition at he
  split at he
  · rw [Option.mem_some_iff] at he
    omega
  · cases he

theorem wellFormed_payment : WellFormed partition payment := by
  refine ⟨_, rfl, ?_, by decide⟩
  intro a ha
  have ha : a ∈ [0, 1] := ha
  rcases List.mem_pair.mp ha with rfl | rfl
  · rfl
  · rfl

theorem wellFormed_batches : ∀ b ∈ batches, ∀ tx ∈ b.transactions, WellFormed partition tx := by
  intro b hb tx htx
  rw [List.mem_singleton.mp hb] at htx
  rw [List.mem_singleton.mp htx]
  exact wellFormed_payment

/-- The first executor waits for account 1, the second one sends it. -/
theorem runs_executor {e : ℕ} (he : e < 2) :
    ∃ decisions t, Runs settings (executor e) batches decisions t := by
  have hok : ∀ e < 2, ((executor e).executeBatch settings default [7] [payment]).isOk = true := by
    decide +kernel
  cases h : (executor e).executeBatch settings default [7] [payment] with
  | error panic =>
      have := hok e he
      rw [h] at this
      cases this
  | ok t =>
      obtain ⟨decisions, hrun⟩ := runs_executeBatch (b := ⟨[7], [payment]⟩) h
      exact ⟨decisions, t, hrun⟩

end AgreementSample

open AgreementSample

theorem schedules_agree_sample :
    ∃ decisions decisions' t t', Runs settings (executor 0) batches decisions t ∧
      Runs settings (executor 1) batches decisions' t' ∧
      decisions.map Decision.partition = decisions'.map Decision.partition ∧
      decisions.map Decision.scheduled = decisions'.map Decision.scheduled := by
  obtain ⟨decisions, t, hrun⟩ := runs_executor (Nat.zero_lt_succ 1)
  obtain ⟨decisions', t', hrun'⟩ := runs_executor (Nat.one_lt_two)
  exact ⟨decisions, decisions', t, t', hrun, hrun',
    (schedules_agree settings partition batches owned_partition wellFormed_batches).1 _ _ _ _ _ _
      rfl rfl hrun hrun'⟩

end Sample

end DagBft.Fusion
