/-
  How a `BatchExecutor` schedules a batch (`worker/src/batch_executor.rs`): which executor
  each transaction goes to, what this executor has to do with it, and the partition of the
  accounts afterwards.

  The iteration order of the `HashMap` of votes is a parameter, `Iteration.votes`. The
  counters of scheduled transactions are left out, as nothing reads them.
-/
import DagBft.Worker.Channels
import Mathlib.Data.List.Perm.Basic
import Mathlib.Data.List.MinMax

namespace DagBft.Fusion

open Worker

/-- A `panic!`, `expect`, `assert!` or `unreachable!` of the executor, or an index out of
    bounds. -/
inductive Panic
  /-- Failed to parse the SmallBank payload. -/
  | payload
  /-- The account is not in the partition. -/
  | notInPartition
  /-- There is no such executor. -/
  | noExecutor
  /-- The account is not in the store. -/
  | accountNotFound
  /-- There is no queue for the account, or it is empty. -/
  | noQueue
  /-- Another transaction is at the head of the queue. -/
  | mismatch
  /-- There are no accounts to take the transaction from. -/
  | noAccounts
  /-- The locality cannot occur here. -/
  | unreachable
  /-- The fuel of a loop ran out. -/
  | fuel
deriving DecidableEq, Repr

/-- Dynamic partition: account_id -> executor_id. -/
abbrev Partition := ℕ → Option ℕ

/-- The immutable part of a `BatchExecutor` that is the same for all of them. -/
structure Settings where
  numExecutors : ℕ
  useNewScheduler : Bool
  clientReplyAddress : ℕ → Option SocketAddr

/-- The orders in which one call iterates over hash maps and hash sets. -/
structure Iteration where
  /-- The votes for the `i`-th transaction of the batch. -/
  votes : ℕ → List (ℕ × ℕ) → List (ℕ × ℕ)
  /-- The ids of the drained transfers. -/
  transfers : List TxID → List TxID
  /-- The position of the `i`-th element taken from the worklist. -/
  picks : ℕ → ℕ
  /-- A bound on the iterations of the loops of `drain_pending_queues`. -/
  fuel : ℕ
  votes_perm : ∀ i l, (votes i l).Perm l
  transfers_perm : ∀ l, (transfers l).Perm l

/-- A transaction with its header, its required accounts and the executor it goes to. -/
structure Scheduled where
  txBytes : Bytes
  header : TransactionHeader
  requiredAccounts : List ℕ
  target : ℕ
deriving DecidableEq

inductive TransactionLocality
  /-- All required accounts are physically present in the local store. -/
  | local
  /-- Accounts migrate out: this executor sends the states and removes the accounts. -/
  | migrateOut (ownedAccountsToMigrate othersAccountsToUpdatePartition : List ℕ)
      (destExecutorId : ℕ)
  /-- Accounts migrate in: this executor receives the states and gains ownership. -/
  | migrateIn (accounts : List (ℕ × ℕ))
  | others (executorId : ℕ)
deriving DecidableEq

/-- Extracts the required accounts for a transaction. -/
def extractRequiredAccounts (txBytes : Bytes) : Except Panic (List ℕ) :=
  match parseSmallbankPayload txBytes with
  | some sbTx => .ok sbTx.requiredAccounts
  | none => .error .payload

/-- Gets the executor id that owns the specified account per the partition. -/
def getExecutorIdByPartition (partition : Partition) (account : ℕ) : Except Panic ℕ :=
  match partition account with
  | some executorId => .ok executorId
  | none => .error .notInPartition

/-! ## The two schedulers -/

/-- The old scheduler: static account-based routing. -/
def scheduleStatic (partition : Partition) : List Bytes → Except Panic (List Scheduled)
  | [] => .ok []
  | txBytes :: transactions =>
      match TransactionHeader.parse txBytes with
      | none => scheduleStatic partition transactions
      | some header => do
          let requiredAccounts ← extractRequiredAccounts txBytes
          let target ← getExecutorIdByPartition partition (requiredAccounts.headD 0)
          let result ← scheduleStatic partition transactions
          .ok (⟨txBytes, header, requiredAccounts, target⟩ :: result)

/-- `((m as f64 / n as f64) * (1.0 + epsilon)).ceil()` with `epsilon = 0.5`. -/
def maxAllowed (transactions numExecutors : ℕ) : ℕ :=
  let share := Double.round (Double.round transactions / Double.round numExecutors)
  ⌈Double.round (share * (3 / 2))⌉.toNat

/-- `*votes.entry(owner).or_insert(0) += 1`. -/
def addVote : List (ℕ × ℕ) → ℕ → List (ℕ × ℕ)
  | [], owner => [(owner, 1)]
  | (executorId, score) :: votes, owner =>
      if executorId = owner then (executorId, score + 1) :: votes
      else (executorId, score) :: addVote votes owner

/-- The votes of the owners, after the moves of this batch. -/
def countVotes (partition localUpdates : Partition) : List ℕ → List (ℕ × ℕ) →
    Except Panic (List (ℕ × ℕ))
  | [], votes => .ok votes
  | account :: accounts, votes =>
      match (localUpdates account).or (partition account) with
      | some owner => countVotes partition localUpdates accounts (addVote votes owner)
      | none => .error .notInPartition

/-- `current_loads[executor_id]`. -/
def loadOf (currentLoads : List ℕ) (executorId : ℕ) : Except Panic ℕ :=
  match currentLoads[executorId]? with
  | some load => .ok load
  | none => .error .noExecutor

/-- The loop over the votes: the best score and its executor so far. -/
def scanVotes (maxAllowed : ℕ) (currentLoads : List ℕ) :
    List (ℕ × ℕ) → Option (ℕ × ℕ) → Except Panic (Option (ℕ × ℕ))
  | [], best => .ok best
  | (executorId, score) :: votes, best => do
      let load ← loadOf currentLoads executorId
      if load < maxAllowed then
        match best with
        | none => scanVotes maxAllowed currentLoads votes (some (score, executorId))
        | some (bestScore, bestExecutor) => do
            let bestLoad ← loadOf currentLoads bestExecutor
            if bestScore < score ∨ score = bestScore ∧ load < bestLoad ∨
                score = bestScore ∧ load = bestLoad ∧ executorId < bestExecutor then
              scanVotes maxAllowed currentLoads votes (some (score, executorId))
            else scanVotes maxAllowed currentLoads votes best
      else scanVotes maxAllowed currentLoads votes best

/-- The executor that the votes are for, if one of these has load to spare. -/
def bestExecutor (maxAllowed : ℕ) (currentLoads : List ℕ) (votes : List (ℕ × ℕ)) :
    Except Panic (Option ℕ) := do
  match votes with
  | [(executorId, _)] =>
      let load ← loadOf currentLoads executorId
      if load < maxAllowed then
        return some executorId
  | _ => pure ()
  return (← scanVotes maxAllowed currentLoads votes none).map Prod.snd

/-- The first executor with the least load. -/
def leastLoaded (currentLoads : List ℕ) : Except Panic ℕ :=
  match currentLoads.min? with
  | some load => .ok (currentLoads.idxOf load)
  | none => .error .noExecutor

/-- The new scheduler: dynamic load-aware scheduling. The first argument counts the
    transactions of the batch. -/
def scheduleDynamic (iter : Iteration) (maxAllowed : ℕ) (partition : Partition) :
    ℕ → Partition → List ℕ → List Bytes → Except Panic (List Scheduled)
  | _, _, _, [] => .ok []
  | i, localUpdates, currentLoads, txBytes :: transactions =>
      match TransactionHeader.parse txBytes with
      | none => scheduleDynamic iter maxAllowed partition (i + 1) localUpdates currentLoads
          transactions
      | some header => do
          let requiredAccounts ← extractRequiredAccounts txBytes
          let votes ← countVotes partition localUpdates requiredAccounts []
          let best ← bestExecutor maxAllowed currentLoads (iter.votes i votes)
          let target ← match best with
            | some executorId => .ok executorId
            | none => leastLoaded currentLoads
          let load ← loadOf currentLoads target
          let result ← scheduleDynamic iter maxAllowed partition (i + 1)
            (fun a => if a ∈ requiredAccounts then some target else localUpdates a)
            (currentLoads.set target (load + 1)) transactions
          .ok (⟨txBytes, header, requiredAccounts, target⟩ :: result)

/-- Parses all transactions in a batch, returning each with its header, its required
    accounts and the executor it goes to. -/
def parseAndScheduleBatchTransactions (cfg : Settings) (iter : Iteration) (partition : Partition)
    (transactions : List Bytes) : Except Panic (List Scheduled) :=
  if cfg.useNewScheduler then
    scheduleDynamic iter (maxAllowed transactions.length cfg.numExecutors) partition 0
      (fun _ => none) (List.replicate cfg.numExecutors 0) transactions
  else
    scheduleStatic partition transactions

/-! ## Localities -/

/-- The required accounts with their owners. -/
def ownersOf (partition : Partition) : List ℕ → Except Panic (List (ℕ × ℕ))
  | [] => .ok []
  | account :: accounts => do
      let owner ← getExecutorIdByPartition partition account
      let owners ← ownersOf partition accounts
      .ok ((account, owner) :: owners)

/-- Determines locality using prescient routing: the target decides who executes. -/
def determineLocality (executorId : ℕ) (partition : Partition) (requiredAccounts : List ℕ)
    (target : ℕ) : Except Panic TransactionLocality := do
  let owners ← ownersOf partition requiredAccounts
  let mine := owners.filter fun x => x.2 = executorId
  let missing := owners.filter fun x => x.2 ≠ executorId
  if target = executorId then
    -- I'm the target — check which accounts I'm missing
    if missing = [] then .ok .local else .ok (.migrateIn missing)
  else
    -- I'm NOT the target — check which accounts I own
    if mine = [] then .ok (.others target)
    else .ok (.migrateOut (mine.map Prod.fst) (missing.map Prod.fst) target)

/-- `states_schedule_partition.insert(account, executor_id)` for each of the accounts. -/
def Partition.move (partition : Partition) (accounts : List ℕ) (executorId : ℕ) : Partition :=
  fun a => if a ∈ accounts then some executorId else partition a

/-- Updates partition based on transaction locality for prescient routing. -/
def updatePartitionForLocality (executorId : ℕ) (partition : Partition)
    (requiredAccounts : List ℕ) : TransactionLocality → Partition
  | .migrateIn accounts => partition.move (accounts.map Prod.fst) executorId
  | .migrateOut owned others dest => (partition.move owned dest).move others dest
  | .others target => partition.move requiredAccounts target
  | .local => partition

/-- Loop 1 of `execute_batch`: build locality decisions. -/
def scheduleLocalities (executorId : ℕ) : Partition → List Scheduled →
    Except Panic (Partition × List (Scheduled × TransactionLocality))
  | partition, [] => .ok (partition, [])
  | partition, tx :: txs => do
      let locality ← determineLocality executorId partition tx.requiredAccounts tx.target
      let partition := updatePartitionForLocality executorId partition tx.requiredAccounts locality
      let (partition, localities) ← scheduleLocalities executorId partition txs
      .ok (partition, (tx, locality) :: localities)

/-! ## The order of the votes does not matter -/

/-- One step of the loop over the votes, when all executors exist. -/
def stepVote (maxAllowed : ℕ) (load : ℕ → ℕ) (best : Option (ℕ × ℕ)) (vote : ℕ × ℕ) :
    Option (ℕ × ℕ) :=
  if load vote.1 < maxAllowed then
    match best with
    | none => some (vote.2, vote.1)
    | some b =>
        if b.1 < vote.2 ∨ vote.2 = b.1 ∧ load vote.1 < load b.2 ∨
            vote.2 = b.1 ∧ load vote.1 = load b.2 ∧ vote.1 < b.2 then
          some (vote.2, vote.1)
        else some b
  else best

theorem stepVote_comm (maxAllowed : ℕ) (load : ℕ → ℕ) (best : Option (ℕ × ℕ)) (x y : ℕ × ℕ) :
    stepVote maxAllowed load (stepVote maxAllowed load best x) y =
      stepVote maxAllowed load (stepVote maxAllowed load best y) x := by
  obtain ⟨e, n⟩ := x
  obtain ⟨e', n'⟩ := y
  unfold stepVote
  cases best with
  | none => grind
  | some b => grind

theorem loadOf_eq (loads : List ℕ) (e : ℕ) :
    loadOf loads e = if e < loads.length then .ok (loads.getD e 0) else .error .noExecutor := by
  unfold loadOf
  by_cases h : e < loads.length
  · simp [h, List.getD]
  · simp [h]

theorem scanVotes_eq {maxAllowed : ℕ} {loads : List ℕ} {votes : List (ℕ × ℕ)}
    {best : Option (ℕ × ℕ)} (hbest : ∀ b ∈ best, b.2 < loads.length) :
    scanVotes maxAllowed loads votes best =
      if ∀ x ∈ votes, x.1 < loads.length then
        .ok (votes.foldl (stepVote maxAllowed fun e => loads.getD e 0) best)
      else .error .noExecutor := by
  induction votes generalizing best with
  | nil => simp [scanVotes]
  | cons x votes ih =>
      obtain ⟨e, n⟩ := x
      by_cases he : e < loads.length
      · -- the step keeps the best vote in range
        have hstep : ∀ b ∈ stepVote maxAllowed (fun e => loads.getD e 0) best (e, n),
            b.2 < loads.length := by
          unfold stepVote
          cases best with
          | none => grind
          | some b => grind
        have hall : (∀ x ∈ (e, n) :: votes, x.1 < loads.length) ↔
            ∀ x ∈ votes, x.1 < loads.length := by simp [he]
        rw [List.foldl_cons, if_congr hall rfl rfl, ← ih hstep]
        unfold stepVote
        cases best with
        | none =>
            simp only [scanVotes, loadOf_eq, he, if_true, bind, Except.bind]
            split <;> rfl
        | some b =>
            have hb := hbest b rfl
            simp only [scanVotes, loadOf_eq, he, hb, if_true, bind, Except.bind]
            split
            · split
              · rfl
              · rfl
            · rfl
      · have hall : ¬ ∀ x ∈ (e, n) :: votes, x.1 < loads.length := fun h => he (h (e, n) (by simp))
        rw [if_neg hall]
        simp [scanVotes, loadOf_eq, he, bind, Except.bind]

/-- A single vote gets no special treatment: the loop would take it, too. -/
theorem bestExecutor_eq (maxAllowed : ℕ) (loads : List ℕ) (votes : List (ℕ × ℕ)) :
    bestExecutor maxAllowed loads votes =
      if ∀ x ∈ votes, x.1 < loads.length then
        .ok ((votes.foldl (stepVote maxAllowed fun e => loads.getD e 0) none).map Prod.snd)
      else .error .noExecutor := by
  have hscan : (Option.map Prod.snd <$> scanVotes maxAllowed loads votes none) =
      if ∀ x ∈ votes, x.1 < loads.length then
        .ok ((votes.foldl (stepVote maxAllowed fun e => loads.getD e 0) none).map Prod.snd)
      else .error .noExecutor := by
    rw [scanVotes_eq (by simp)]
    split
    · rfl
    · rfl
  unfold bestExecutor
  split
  · rename_i e score
    by_cases he : e < loads.length
    · by_cases hload : loads.getD e 0 < maxAllowed
      · simp only [loadOf_eq, he, hload, stepVote, if_true, bind, Except.bind, pure, Except.pure,
          List.mem_singleton, forall_eq, List.foldl_cons, List.foldl_nil, Option.map_some]
      · rw [← hscan]
        simp only [loadOf_eq, he, hload, if_true, if_false, bind, Except.bind, pure, Except.pure]
        rfl
    · simp [loadOf_eq, he, bind, Except.bind]
  · exact hscan

theorem bestExecutor_perm {maxAllowed : ℕ} {loads : List ℕ} {votes votes' : List (ℕ × ℕ)}
    (h : votes.Perm votes') :
    bestExecutor maxAllowed loads votes = bestExecutor maxAllowed loads votes' := by
  have hall : (∀ x ∈ votes, x.1 < loads.length) ↔ ∀ x ∈ votes', x.1 < loads.length :=
    forall_congr' fun x => by rw [h.mem_iff]
  have : RightCommutative (stepVote maxAllowed fun e => loads.getD e 0) :=
    ⟨fun b x y => stepVote_comm maxAllowed _ b x y⟩
  rw [bestExecutor_eq, bestExecutor_eq, if_congr hall rfl rfl, h.foldl_eq]

theorem scheduleDynamic_iter (iter iter' : Iteration) {maxAllowed : ℕ} {partition : Partition}
    (transactions : List Bytes) (i : ℕ) (localUpdates : Partition) (loads : List ℕ) :
    scheduleDynamic iter maxAllowed partition i localUpdates loads transactions =
      scheduleDynamic iter' maxAllowed partition i localUpdates loads transactions := by
  induction transactions generalizing i localUpdates loads with
  | nil => rfl
  | cons txBytes transactions ih =>
      have hbest : ∀ votes, bestExecutor maxAllowed loads (iter.votes i votes) =
          bestExecutor maxAllowed loads (iter'.votes i votes) := fun votes =>
        bestExecutor_perm ((iter.votes_perm i votes).trans (iter'.votes_perm i votes).symm)
      unfold scheduleDynamic
      simp only [ih, hbest]

/-- The schedule does not depend on the order in which a hash map is iterated over. -/
theorem parseAndSchedule_iter (cfg : Settings) (iter iter' : Iteration) (partition : Partition)
    (transactions : List Bytes) :
    parseAndScheduleBatchTransactions cfg iter partition transactions =
      parseAndScheduleBatchTransactions cfg iter' partition transactions := by
  unfold parseAndScheduleBatchTransactions
  rw [scheduleDynamic_iter iter iter']

/-! ## The partition after loop 1 -/

/-- The owner of an account that is in the partition. -/
def Partition.ownerD (partition : Partition) (account : ℕ) : ℕ := (partition account).getD 0

theorem ownersOf_eq_ok {partition : Partition} {accounts : List ℕ} {owners : List (ℕ × ℕ)} :
    ownersOf partition accounts = .ok owners ↔
      (∀ a ∈ accounts, (partition a).isSome) ∧
        owners = accounts.map fun a => (a, partition.ownerD a) := by
  induction accounts generalizing owners with
  | nil =>
      simp only [ownersOf, Except.ok.injEq, List.map_nil]
      exact ⟨fun h => ⟨by simp, h.symm⟩, fun h => h.2.symm⟩
  | cons account accounts ih =>
      unfold ownersOf getExecutorIdByPartition
      cases h : partition account with
      | none => simp [h, bind, Except.bind]
      | some owner =>
          have hd : partition.ownerD account = owner := by simp [Partition.ownerD, h]
          cases ho : ownersOf partition accounts with
          | error e =>
              have hnot : ¬ ∀ a ∈ accounts, (partition a).isSome := fun hall => by
                have := ih.mpr ⟨hall, rfl⟩
                rw [ho] at this
                cases this
              simp only [bind, Except.bind, reduceCtorEq, List.forall_mem_cons, false_iff]
              exact fun hall => hnot hall.1.2
          | ok owners' =>
              obtain ⟨hall, rfl⟩ := ih.mp ho
              simp only [bind, Except.bind, Except.ok.injEq, List.forall_mem_cons, h,
                Option.isSome_some, true_and, List.map_cons, hd]
              exact ⟨fun he => ⟨hall, he.symm⟩, fun he => he.2.symm⟩

/-- The locality of a transaction whose accounts are all in the partition. -/
def localityOf (executorId : ℕ) (partition : Partition) (requiredAccounts : List ℕ)
    (target : ℕ) : TransactionLocality :=
  let mine := requiredAccounts.filter fun a => partition.ownerD a = executorId
  let missing := requiredAccounts.filter fun a => partition.ownerD a ≠ executorId
  if target = executorId then
    if missing = [] then .local else .migrateIn (missing.map fun a => (a, partition.ownerD a))
  else if mine = [] then .others target
  else .migrateOut mine missing target

theorem determineLocality_eq_ok {executorId : ℕ} {partition : Partition}
    {requiredAccounts : List ℕ} {target : ℕ} {l : TransactionLocality} :
    determineLocality executorId partition requiredAccounts target = .ok l ↔
      (∀ a ∈ requiredAccounts, (partition a).isSome) ∧
        l = localityOf executorId partition requiredAccounts target := by
  unfold determineLocality
  cases ho : ownersOf partition requiredAccounts with
  | error e =>
      have hnot : ¬ ∀ a ∈ requiredAccounts, (partition a).isSome := fun hall => by
        have := ownersOf_eq_ok.mpr ⟨hall, rfl⟩
        rw [ho] at this
        cases this
      simp [bind, Except.bind, hnot]
  | ok owners =>
      obtain ⟨hall, rfl⟩ := ownersOf_eq_ok.mp ho
      simp only [bind, Except.bind, List.filter_map, Function.comp_def, List.map_eq_nil_iff,
        List.map_map, List.map_id', localityOf]
      rw [and_iff_right hall]
      split
      · split
        · simp [eq_comm]
        · simp [eq_comm]
      · split
        · simp [eq_comm]
        · simp [eq_comm]

/-- Whatever the executor, the required accounts go to the target. -/
theorem updatePartition_localityOf {executorId : ℕ} {partition : Partition}
    {requiredAccounts : List ℕ} {target : ℕ}
    (hall : ∀ a ∈ requiredAccounts, (partition a).isSome) :
    updatePartitionForLocality executorId partition requiredAccounts
      (localityOf executorId partition requiredAccounts target) =
      partition.move requiredAccounts target := by
  funext a
  have howner : ∀ a ∈ requiredAccounts, partition a = some (partition.ownerD a) := by
    intro a ha
    obtain ⟨o, ho⟩ := Option.isSome_iff_exists.mp (hall a ha)
    simp [Partition.ownerD, ho]
  simp only [localityOf]
  by_cases ht : target = executorId
  · subst ht
    rw [if_pos rfl]
    by_cases hm : (requiredAccounts.filter fun a => partition.ownerD a ≠ target) = []
    · have hmine : ∀ a ∈ requiredAccounts, partition.ownerD a = target := by
        simpa [List.filter_eq_nil_iff] using hm
      rw [if_pos hm]
      by_cases ha : a ∈ requiredAccounts
      · simp [updatePartitionForLocality, Partition.move, ha, howner a ha, hmine a ha]
      · simp [updatePartitionForLocality, Partition.move, ha]
    · rw [if_neg hm]
      simp only [updatePartitionForLocality, Partition.move, List.map_map, Function.comp_def,
        List.map_id', List.mem_filter, decide_eq_true_eq]
      by_cases ha : a ∈ requiredAccounts
      · by_cases ho : partition.ownerD a = target
        · simp [ha, ho, howner a ha]
        · simp [ha, ho]
      · simp [ha]
  · rw [if_neg ht]
    by_cases hm : (requiredAccounts.filter fun a => partition.ownerD a = executorId) = []
    · rw [if_pos hm]
      rfl
    · rw [if_neg hm]
      simp only [updatePartitionForLocality, Partition.move, List.mem_filter, decide_eq_true_eq]
      by_cases ha : a ∈ requiredAccounts
      · by_cases ho : partition.ownerD a = executorId
        · simp [ha, ho]
        · simp [ha, ho]
      · simp [ha]

/-- The partition after some transactions. -/
def Partition.movedBy (partition : Partition) (txs : List Scheduled) : Partition :=
  txs.foldl (fun p tx => p.move tx.requiredAccounts tx.target) partition

/-- The localities of transactions whose accounts are all in the partition. -/
def localitiesOf (executorId : ℕ) : Partition → List Scheduled →
    List (Scheduled × TransactionLocality)
  | _, [] => []
  | partition, tx :: txs =>
      (tx, localityOf executorId partition tx.requiredAccounts tx.target) ::
        localitiesOf executorId (partition.move tx.requiredAccounts tx.target) txs

theorem Partition.isSome_move {partition : Partition} {accounts : List ℕ} {target a : ℕ} :
    (partition.move accounts target a).isSome ↔ a ∈ accounts ∨ (partition a).isSome := by
  unfold Partition.move
  split
  · simp [*]
  · simp [*]

/-- Loop 1, when it does not panic: the partition does not depend on the executor. -/
theorem scheduleLocalities_eq_ok {executorId : ℕ} {partition : Partition} {txs : List Scheduled}
    {r : Partition × List (Scheduled × TransactionLocality)} :
    scheduleLocalities executorId partition txs = .ok r ↔
      (∀ tx ∈ txs, ∀ a ∈ tx.requiredAccounts, (partition a).isSome) ∧
        r = (partition.movedBy txs, localitiesOf executorId partition txs) := by
  induction txs generalizing partition r with
  | nil =>
      simp only [scheduleLocalities, Except.ok.injEq, localitiesOf, Partition.movedBy]
      exact ⟨fun h => ⟨by simp, h.symm⟩, fun h => h.2.symm⟩
  | cons tx txs ih =>
      simp only [scheduleLocalities, List.forall_mem_cons]
      cases hl : determineLocality executorId partition tx.requiredAccounts tx.target with
      | error e =>
          have hnot : ¬ ∀ a ∈ tx.requiredAccounts, (partition a).isSome := fun hall => by
            have : determineLocality executorId partition tx.requiredAccounts tx.target = .ok _ :=
              determineLocality_eq_ok.mpr ⟨hall, rfl⟩
            rw [hl] at this
            cases this
          simp [bind, Except.bind, hnot]
      | ok l =>
          obtain ⟨hall, rfl⟩ := determineLocality_eq_ok.mp hl
          simp only [bind, Except.bind]
          rw [updatePartition_localityOf hall]
          have hsome : (∀ tx' ∈ txs, ∀ a ∈ tx'.requiredAccounts,
              (partition.move tx.requiredAccounts tx.target a).isSome) ↔
              ∀ tx' ∈ txs, ∀ a ∈ tx'.requiredAccounts, (partition a).isSome := by
            refine forall₄_congr fun tx' _ a _ => ?_
            rw [Partition.isSome_move]
            exact or_iff_right_of_imp (hall a)
          cases hs : scheduleLocalities executorId
              (partition.move tx.requiredAccounts tx.target) txs with
          | error e =>
              have hnot : ¬ ∀ tx' ∈ txs, ∀ a ∈ tx'.requiredAccounts, (partition a).isSome := by
                intro hall'
                have := ih.mpr ⟨hsome.mpr hall', rfl⟩
                rw [hs] at this
                cases this
              simp only [reduceCtorEq, false_iff]
              exact fun h => hnot h.1.2
          | ok r' =>
              obtain ⟨hall', rfl⟩ := ih.mp hs
              simp only [Except.ok.injEq]
              exact ⟨fun h => ⟨⟨hall, hsome.mp hall'⟩, h.symm⟩, fun h => h.2.symm⟩

end DagBft.Fusion
