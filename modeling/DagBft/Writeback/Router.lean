/-
  The router of the writeback design (`worker/src/writeback_router.rs`), and how a
  `DistributedTxExecutor` classifies what it is sent
  (`worker/src/writeback_batch_executor.rs`).

  The router reads two account ids at fixed offsets; the executor parses the transaction and
  takes its accounts from its type. `routesToOwners_iff` says for which batches the two
  agree.

  The batch is given: reading it from the store is left out. The map of transactions by
  executor is a function to `Option`, and the messages are listed in the order of the
  executors, each of which gets one.
-/
import DagBft.Fusion.Sequence

namespace DagBft.Writeback

open Worker Fusion

/-! ## WritebackRouter -/

/-- An `expect` or `unwrap` of the router. -/
inductive RouterPanic
  /-- Partition required for SmallBank workload. -/
  | noPartition
  /-- The account must have an owner in the partition. -/
  | noOwner
  /-- The owner has no address. -/
  | noExecutor
deriving DecidableEq, Repr

abbrev TxsByExecutors := ℕ → Option (List Bytes)

/-- `get_mut(&owner).unwrap().push(tx_bytes.clone())`. -/
def pushTx (txs : TxsByExecutors) (owner : ℕ) (tx : Bytes) : Except RouterPanic TxsByExecutors :=
  match txs owner with
  | some l => .ok (Function.update txs owner (some (l ++ [tx])))
  | none => .error .noExecutor

def ownerOf (partition : Partition) (account : ℕ) : Except RouterPanic ℕ :=
  match partition account with
  | some owner => .ok owner
  | none => .error .noOwner

/-- One transaction of the batch. -/
def routeTransaction (partition : Option Partition) (txs : TxsByExecutors) (tx : Bytes) :
    Except RouterPanic TxsByExecutors :=
  match extractAccountIds tx with
  | (some src, some dest) =>
      match partition with
      | none => .error .noPartition
      | some assignment => do
          let srcOwner ← ownerOf assignment src
          let destOwner ← ownerOf assignment dest
          if src ≠ dest ∧ srcOwner ≠ destOwner then
            -- Distributed SendPayment: multicast to both executors
            let txs ← pushTx txs srcOwner tx
            pushTx txs destOwner tx
          else pushTx txs srcOwner tx
  -- Malformed SmallBank transaction, ignoring
  | _ => .ok txs

def sendToExecutor (digest : Bytes) (sequence : ℕ) (txs : List Bytes) : WorkerToExecutorMessage :=
  if txs = [] then .sequenceSync sequence else .execute digest sequence txs

/-- The messages for a batch, by executor. -/
def routeExecution (executors : List ℕ) (partition : Option Partition) (digest : Bytes)
    (sequence : ℕ) (batch : List Bytes) :
    Except RouterPanic (List (ℕ × WorkerToExecutorMessage)) := do
  -- Every executor gets a message.
  let txs ← batch.foldlM (routeTransaction partition)
    fun executor => if executor ∈ executors then some [] else none
  .ok (executors.map fun executor =>
    (executor, sendToExecutor digest sequence ((txs executor).getD [])))

/-! ## DistributedTxExecutor -/

inductive TransactionLocality
  | local
  | distributedSource (srcAccount : ℕ) (destExecutorId : ℕ)
  | distributedDest (destAccount : ℕ) (srcExecutorId : ℕ)
deriving DecidableEq, Repr

/-- `get_account_executor_id`, with the partition of the accounts. -/
def getAccountExecutorId (partition : Partition) (account : ℕ) : Except Panic ℕ :=
  getExecutorIdByPartition partition account

def executorHasAccount (executorId : ℕ) (partition : Partition) (account : ℕ) :
    Except Panic Bool :=
  (getAccountExecutorId partition account).map fun executor => executor = executorId

def determineLocality (executorId : ℕ) (partition : Partition) :
    List ℕ → Except Panic TransactionLocality
  | [srcAccount, destAccount] => do
      let ownsSrc ← executorHasAccount executorId partition srcAccount
      let ownsDest ← executorHasAccount executorId partition destAccount
      match ownsSrc, ownsDest with
      | true, true => .ok .local
      | true, false => do
          let destExecutorId ← getAccountExecutorId partition destAccount
          .ok (.distributedSource srcAccount destExecutorId)
      | false, true => do
          let srcExecutorId ← getAccountExecutorId partition srcAccount
          .ok (.distributedDest destAccount srcExecutorId)
      -- neither account is local: should never happen
      | false, false => .error .unreachable
  | _ => .ok .local

/-! ## Who is sent a transaction -/

/-- The bytes are a SmallBank transaction. -/
def parses (tx : Bytes) : Bool :=
  (TransactionHeader.parse tx).isSome && (parseSmallbankPayload tx).isSome

/-- The executor owns one of the required accounts. -/
def requires (partition : Partition) (executor : ℕ) (tx : Bytes) : Bool :=
  parses tx && (parseSmallbankPayload tx).any fun sbTx =>
    sbTx.requiredAccounts.any fun account => partition account = some executor

/-- The two account ids at their offsets. -/
def srcField (tx : Bytes) : ℕ := fromBeBytes (slice tx 10 18)

def destField (tx : Bytes) : ℕ := fromBeBytes (slice tx 18 26)

/-- The router finds the account ids, and the executor owns one of the accounts. -/
def routed (partition : Partition) (executor : ℕ) (tx : Bytes) : Bool :=
  26 ≤ tx.length && (partition (srcField tx) = some executor ||
    partition (destField tx) = some executor)

/-- The accounts are in the partition, at executors that there are. -/
def Owned (executors : List ℕ) (partition : Partition) (tx : Bytes) : Prop :=
  26 ≤ tx.length → (∃ e ∈ executors, partition (srcField tx) = some e) ∧
    ∃ e ∈ executors, partition (destField tx) = some e

theorem extractAccountIds_eq (tx : Bytes) : extractAccountIds tx =
    if 26 ≤ tx.length then (some (srcField tx), some (destField tx)) else (none, none) := by
  unfold extractAccountIds srcField destField
  by_cases h : tx.length < 26
  · rw [if_pos h, if_neg (by omega)]
  · rw [if_neg h, if_pos (by omega)]

variable {executors : List ℕ} {partition : Partition} {txs : TxsByExecutors} {tx : Bytes}

/-- What the transactions are after one of them: it is appended where it is routed to. -/
def appendWhere (p : ℕ → Bool) (tx : Bytes) (txs : TxsByExecutors) : TxsByExecutors :=
  fun e => (txs e).map fun l => if p e then l ++ [tx] else l

theorem pushTx_eq_ok {owner : ℕ} (h : (txs owner).isSome = true) :
    pushTx txs owner tx = .ok (appendWhere (fun e => e = owner) tx txs) := by
  obtain ⟨l, hl⟩ := Option.isSome_iff_exists.mp h
  unfold pushTx
  rw [hl]
  refine congrArg Except.ok (funext fun e => ?_)
  unfold appendWhere
  by_cases he : e = owner
  · subst he
    rw [Function.update_self, hl]
    simp
  · rw [Function.update_of_ne he]
    simp [he]

theorem isSome_appendWhere {p : ℕ → Bool} {e : ℕ} :
    ((appendWhere p tx txs) e).isSome = (txs e).isSome := Option.isSome_map

/-- One transaction is appended to the lists of the owners of the two accounts. -/
theorem routeTransaction_eq_ok (hkeys : ∀ e, (txs e).isSome = true ↔ e ∈ executors)
    (howned : Owned executors partition tx) :
    routeTransaction (some partition) txs tx =
      .ok (appendWhere (fun e => routed partition e tx) tx txs) := by
  unfold routeTransaction
  rw [extractAccountIds_eq]
  by_cases hlen : 26 ≤ tx.length
  · obtain ⟨⟨s, hs, hsrc⟩, ⟨d, hd, hdest⟩⟩ := howned hlen
    have hrouted : (fun e => routed partition e tx) = fun e => decide (e = s) || decide (e = d) := by
      funext e
      unfold routed
      rw [hsrc, hdest]
      simp [hlen, eq_comm]
    rw [if_pos hlen, hrouted]
    simp only [ownerOf, hsrc, hdest, bind, Except.bind]
    by_cases hmulti : srcField tx ≠ destField tx ∧ s ≠ d
    · rw [if_pos hmulti, pushTx_eq_ok ((hkeys s).mpr hs)]
      show pushTx (appendWhere _ tx txs) d tx = _
      rw [pushTx_eq_ok (isSome_appendWhere.trans ((hkeys d).mpr hd))]
      refine congrArg Except.ok (funext fun e => ?_)
      unfold appendWhere
      rw [Option.map_map]
      refine congrArg (fun f => Option.map f (txs e)) (funext fun l => ?_)
      by_cases h1 : e = s
      · subst h1
        simp [hmulti.2]
      · by_cases h2 : e = d
        · simp [h2, Ne.symm hmulti.2]
        · simp [h1, h2]
    · -- the two owners are the same
      have hsd : s = d := by
        by_contra hne
        by_cases hf : srcField tx = destField tx
        · rw [hf, hdest] at hsrc
          exact hne (Option.some.inj hsrc).symm
        · exact hmulti ⟨hf, hne⟩
      subst hsd
      rw [if_neg hmulti, pushTx_eq_ok ((hkeys s).mpr hs)]
      simp
  · have hrouted : (fun e => routed partition e tx) = fun _ => false := by
      funext e
      simp [routed, hlen]
    rw [if_neg hlen, hrouted]
    refine congrArg Except.ok (funext fun e => ?_)
    simp [appendWhere]

/-- The lists after a batch. -/
theorem foldlM_routeTransaction {batch : List Bytes}
    (hkeys : ∀ e, (txs e).isSome = true ↔ e ∈ executors)
    (howned : ∀ tx ∈ batch, Owned executors partition tx) :
    batch.foldlM (routeTransaction (some partition)) txs =
      .ok fun e => (txs e).map fun l => l ++ batch.filter (routed partition e) := by
  induction batch generalizing txs with
  | nil => exact congrArg Except.ok (funext fun e => by simp)
  | cons tx batch ih =>
      have hkeys' : ∀ e, ((appendWhere (fun e => routed partition e tx) tx txs) e).isSome = true ↔
          e ∈ executors := fun e => by rw [isSome_appendWhere, hkeys]
      rw [List.foldlM_cons, routeTransaction_eq_ok hkeys (howned tx List.mem_cons_self)]
      show batch.foldlM _ (appendWhere _ tx txs) = _
      rw [ih hkeys' fun y hy => howned y (List.mem_cons_of_mem _ hy)]
      refine congrArg Except.ok (funext fun e => ?_)
      unfold appendWhere
      rw [Option.map_map]
      refine congrArg (fun f => Option.map f (txs e)) (funext fun l => ?_)
      by_cases h : routed partition e tx = true
      · simp [h]
      · simp [h]

/-- Every executor is sent what is routed to it, in the order of the batch. -/
theorem routeExecution_eq {batch : List Bytes} (digest : Bytes) (sequence : ℕ)
    (howned : ∀ tx ∈ batch, Owned executors partition tx) :
    routeExecution executors (some partition) digest sequence batch =
      .ok (executors.map fun e =>
        (e, sendToExecutor digest sequence (batch.filter (routed partition e)))) := by
  have hkeys : ∀ e, (if e ∈ executors then some ([] : List Bytes) else none).isSome = true ↔
      e ∈ executors := fun e => by split <;> simp_all
  unfold routeExecution
  rw [foldlM_routeTransaction hkeys howned]
  refine congrArg Except.ok (List.map_congr_left fun e he => ?_)
  simp [he]

/-! ## What the executor reads -/

/-- The executor takes the accounts from the same bytes. -/
theorem parse_fields {sbTx : SmallBankTransaction} (h : parseSmallbankPayload tx = some sbTx) :
    35 ≤ tx.length ∧ sbTx.accountId = srcField tx ∧ sbTx.destAccountId = destField tx := by
  unfold parseSmallbankPayload at h
  by_cases hlen : tx.length < 35
  · rw [if_pos hlen] at h
    cases h
  · rw [if_neg hlen] at h
    unfold SmallBankTransaction.fromBytes at h
    by_cases hshort : (slice tx 10 35).length < 25
    · rw [if_pos hshort] at h
      cases h
    · rw [if_neg hshort, Option.map_eq_some_iff] at h
      obtain ⟨txType, -, rfl⟩ := h
      have hsrc : slice (slice tx 10 35) 0 8 = slice tx 10 18 := by
        unfold slice
        rw [List.drop_zero, List.take_take]
        rfl
      have hdest : slice (slice tx 10 35) 8 16 = slice tx 18 26 := by
        unfold slice
        rw [List.drop_take, List.drop_drop, List.take_take]
        rfl
      exact ⟨by omega, congrArg fromBeBytes hsrc, congrArg fromBeBytes hdest⟩

theorem parses_iff : parses tx = true ↔ ∃ sbTx, parseSmallbankPayload tx = some sbTx := by
  unfold parses
  rw [Bool.and_eq_true]
  constructor
  · intro h
    exact Option.isSome_iff_exists.mp h.2
  · rintro ⟨sbTx, h⟩
    have hlen := (parse_fields h).1
    refine ⟨?_, Option.isSome_iff_exists.mpr ⟨sbTx, h⟩⟩
    unfold TransactionHeader.parse
    rw [if_neg (by omega)]
    rfl

theorem requires_of_parse {sbTx : SmallBankTransaction} {e : ℕ}
    (h : parseSmallbankPayload tx = some sbTx) : requires partition e tx = true ↔
      ∃ account ∈ sbTx.requiredAccounts, partition account = some e := by
  have hp : parses tx = true := parses_iff.mpr ⟨sbTx, h⟩
  unfold requires
  rw [hp, h]
  simp

theorem routed_of_parse {sbTx : SmallBankTransaction} {e : ℕ}
    (h : parseSmallbankPayload tx = some sbTx) : routed partition e tx = true ↔
      partition sbTx.accountId = some e ∨ partition sbTx.destAccountId = some e := by
  obtain ⟨hlen, hsrc, hdest⟩ := parse_fields h
  unfold routed
  rw [hsrc, hdest]
  have hle : 26 ≤ tx.length := by omega
  simp [hle]

theorem requiredAccounts_sendPayment {sbTx : SmallBankTransaction}
    (h : sbTx.txType = .sendPayment) :
    sbTx.requiredAccounts = [sbTx.accountId, sbTx.destAccountId] := by
  unfold SmallBankTransaction.requiredAccounts
  rw [h]

theorem requiredAccounts_single {sbTx : SmallBankTransaction} (h : sbTx.txType ≠ .sendPayment) :
    sbTx.requiredAccounts = [sbTx.accountId] := by
  unfold SmallBankTransaction.requiredAccounts
  cases ht : sbTx.txType with
  | sendPayment => exact absurd ht h
  | _ => rfl

/-- What the router reads says what the transaction is: the bytes parse, and if only one
    account is required the other field belongs to the same executor. -/
def FieldsTell (partition : Partition) (tx : Bytes) : Prop :=
  26 ≤ tx.length → ∃ sbTx, parseSmallbankPayload tx = some sbTx ∧
    (sbTx.txType = .sendPayment ∨ partition sbTx.accountId = partition sbTx.destAccountId)

/-- The router and the executors agree on a transaction exactly if its fields tell. -/
theorem routed_eq_requires_iff (howned : Owned executors partition tx) :
    (∀ e ∈ executors, routed partition e tx = requires partition e tx) ↔
      FieldsTell partition tx := by
  by_cases hlen : 26 ≤ tx.length
  · obtain ⟨⟨s, hs, hsrc⟩, ⟨d, hd, hdest⟩⟩ := howned hlen
    constructor
    · intro h _
      have hrouted : routed partition s tx = true := by simp [routed, hlen, hsrc]
      have hrequires : requires partition s tx = true := (h s hs).symm.trans hrouted
      obtain ⟨sbTx, hparse⟩ := parses_iff.mp (Bool.and_eq_true_iff.mp hrequires).1
      refine ⟨sbTx, hparse, ?_⟩
      by_cases htype : sbTx.txType = .sendPayment
      · exact Or.inl htype
      · -- the owner of the other field is sent the transaction as well
        obtain ⟨-, hsrcField, hdestField⟩ := parse_fields hparse
        have hd' : routed partition d tx = true := by simp [routed, hlen, hdest]
        rw [h d hd, requires_of_parse hparse, requiredAccounts_single htype] at hd'
        obtain ⟨account, hmem, howner⟩ := hd'
        rw [List.mem_singleton] at hmem
        subst hmem
        rw [howner, hdestField, hdest]
        exact Or.inr rfl
    · intro htell e he
      obtain ⟨sbTx, hparse, htype⟩ := htell hlen
      rw [Bool.eq_iff_iff, routed_of_parse hparse, requires_of_parse hparse]
      by_cases hpayment : sbTx.txType = .sendPayment
      · rw [requiredAccounts_sendPayment hpayment]
        simp
      · rcases htype with hpay | heq
        · exact absurd hpay hpayment
        · rw [requiredAccounts_single hpayment, heq]
          simp [heq]
  · refine iff_of_true (fun e he => ?_) fun h => absurd h hlen
    have hnot : parses tx = false := by
      rw [Bool.eq_false_iff]
      intro hp
      obtain ⟨sbTx, hparse⟩ := parses_iff.mp hp
      have := (parse_fields hparse).1
      omega
    simp [routed, requires, hlen, hnot]

/-! ## Agreement -/

/-- The executor parses the transaction, classifies it without a panic, and as local only
    if it owns its accounts. -/
def Handles (partition : Partition) (executor : ℕ) (tx : Bytes) : Prop :=
  ∃ header accounts locality, TransactionHeader.parse tx = some header ∧
    extractRequiredAccounts tx = .ok accounts ∧
    determineLocality executor partition accounts = .ok locality ∧
    (locality = .local → ∀ account ∈ accounts, partition account = some executor)

/-- Each executor is sent the transactions that parse and require one of its accounts, and
    nothing else, and can handle them. -/
def RoutesToOwners (executors : List ℕ) (partition : Partition) (digest : Bytes) (sequence : ℕ)
    (batch : List Bytes) : Prop :=
  routeExecution executors (some partition) digest sequence batch =
      .ok (executors.map fun e =>
        (e, sendToExecutor digest sequence (batch.filter (requires partition e)))) ∧
    ∀ e ∈ executors, ∀ tx ∈ batch.filter (requires partition e), Handles partition e tx

/-- Who owns a required account can handle the transaction. -/
theorem handles_of_requires {e : ℕ} (howned : Owned executors partition tx)
    (h : requires partition e tx = true) : Handles partition e tx := by
  obtain ⟨sbTx, hparse⟩ := parses_iff.mp (Bool.and_eq_true_iff.mp h).1
  have hheader := (Bool.and_eq_true_iff.mp (Bool.and_eq_true_iff.mp h).1).1
  obtain ⟨header, hheader⟩ := Option.isSome_iff_exists.mp hheader
  obtain ⟨hlen, hsrcField, hdestField⟩ := parse_fields hparse
  obtain ⟨⟨s, -, hsrc⟩, ⟨d, -, hdest⟩⟩ := howned (by omega)
  rw [← hsrcField] at hsrc
  rw [← hdestField] at hdest
  have haccounts : extractRequiredAccounts tx = .ok sbTx.requiredAccounts := by
    unfold extractRequiredAccounts
    rw [hparse]
  have hmem := (requires_of_parse hparse).mp h
  by_cases hpayment : sbTx.txType = .sendPayment
  · rw [requiredAccounts_sendPayment hpayment] at haccounts hmem
    have hone : s = e ∨ d = e := by
      obtain ⟨account, ha, howner⟩ := hmem
      rcases List.mem_cons.mp ha with rfl | ha
      · exact Or.inl (Option.some.inj (hsrc.symm.trans howner))
      · rw [List.mem_singleton] at ha
        subst ha
        exact Or.inr (Option.some.inj (hdest.symm.trans howner))
    have hlocality : determineLocality e partition [sbTx.accountId, sbTx.destAccountId] =
        match decide (s = e), decide (d = e) with
        | true, true => .ok .local
        | true, false => .ok (.distributedSource sbTx.accountId d)
        | false, true => .ok (.distributedDest sbTx.destAccountId s)
        | false, false => .error .unreachable := by
      simp only [determineLocality, executorHasAccount, getAccountExecutorId,
        getExecutorIdByPartition, hsrc, hdest]
      rfl
    by_cases hs : s = e
    · by_cases hd : d = e
      · refine ⟨header, _, .local, hheader, haccounts, by simp [hlocality, hs, hd], fun _ => ?_⟩
        simp [hsrc, hdest, hs, hd]
      · exact ⟨header, _, .distributedSource sbTx.accountId d, hheader, haccounts,
          by simp [hlocality, hs, hd], fun hl => by cases hl⟩
    · have hd : d = e := hone.resolve_left hs
      exact ⟨header, _, .distributedDest sbTx.destAccountId s, hheader, haccounts,
        by simp [hlocality, hs, hd], fun hl => by cases hl⟩
  · rw [requiredAccounts_single hpayment] at haccounts hmem
    obtain ⟨account, ha, howner⟩ := hmem
    rw [List.mem_singleton] at ha
    subst ha
    refine ⟨header, _, .local, hheader, haccounts, rfl, fun _ account ha => ?_⟩
    rw [List.mem_singleton] at ha
    rw [ha, howner]

theorem sendToExecutor_injective {digest : Bytes} {sequence : ℕ} {l l' : List Bytes}
    (h : sendToExecutor digest sequence l = sendToExecutor digest sequence l') : l = l' := by
  have htxs : ∀ l : List Bytes,
      (sendToExecutor digest sequence l).dispatch.2.transactions = l := by
    intro l
    unfold sendToExecutor
    by_cases hl : l = []
    · subst hl
      rfl
    · rw [if_neg hl]
      rfl
  rw [← htxs l, h, htxs l']

/-- The router sends each transaction to the executors that own one of its accounts, and
    only what parses, exactly if its fields tell what it is, for every one that has them. -/
theorem routesToOwners_iff (executors : List ℕ) (partition : Partition) (digest : Bytes)
    (sequence : ℕ) (batch : List Bytes) (howned : ∀ tx ∈ batch, Owned executors partition tx) :
    RoutesToOwners executors partition digest sequence batch ↔
      ∀ tx ∈ batch, FieldsTell partition tx := by
  unfold RoutesToOwners
  rw [routeExecution_eq digest sequence howned]
  constructor
  · rintro ⟨heq, -⟩ tx htx
    rw [← routed_eq_requires_iff (howned tx htx)]
    intro e he
    have hlists := List.map_inj_left.mp (Except.ok.inj heq) e he
    have hfilter := sendToExecutor_injective (Prod.mk.inj hlists).2
    rw [Bool.eq_iff_iff]
    have hmem : tx ∈ batch.filter (routed partition e) ↔ tx ∈ batch.filter (requires partition e) :=
      by rw [hfilter]
    rw [List.mem_filter, List.mem_filter] at hmem
    exact (and_congr_right_iff.mp hmem) htx
  · intro htell
    refine ⟨congrArg Except.ok (List.map_congr_left fun e he => ?_), fun e _ tx htx => ?_⟩
    · have hfilter : batch.filter (routed partition e) = batch.filter (requires partition e) :=
        List.filter_congr fun tx htx =>
          (routed_eq_requires_iff (howned tx htx)).mpr (htell tx htx) e he
      rw [hfilter]
    · obtain ⟨hmem, hrequires⟩ := List.mem_filter.mp htx
      exact handles_of_requires (howned tx hmem) hrequires

section Sample

namespace RouterSample

/-- Two executors; account 0 belongs to the first, all others to the second. -/
def twoExecutors : List ℕ := [0, 1]

def twoPartition : Partition := fun account => if account = 0 then some 0 else some 1

/-- The bytes name account 0 and account 1. -/
def transaction (txType : UInt8) : Bytes :=
  List.replicate 25 0 ++ [1, txType] ++ List.replicate 8 0

/-- A deposit into account 0, with account 1 in the field it does not use. -/
def deposit : Bytes := transaction 1

def payment : Bytes := transaction 4

theorem owned_deposit : ∀ tx ∈ [deposit], Owned twoExecutors twoPartition tx := by
  intro tx htx _
  rw [List.mem_singleton.mp htx]
  exact ⟨⟨0, by decide, by decide⟩, 1, by decide, by decide⟩

theorem owned_payment : ∀ tx ∈ [payment], Owned twoExecutors twoPartition tx := by
  intro tx htx _
  rw [List.mem_singleton.mp htx]
  exact ⟨⟨0, by decide, by decide⟩, 1, by decide, by decide⟩

end RouterSample

open RouterSample

theorem routesToOwners_iff_sample :
    RoutesToOwners twoExecutors twoPartition [7] 0 [payment] ↔
      ∀ tx ∈ [payment], FieldsTell twoPartition tx :=
  routesToOwners_iff twoExecutors twoPartition [7] 0 [payment] owned_payment

/-- A deposit whose other field belongs to another executor is sent to both. -/
theorem deposit_misrouted :
    ¬ ∀ (executors : List ℕ) (partition : Partition) (digest : Bytes) (sequence : ℕ)
        (batch : List Bytes), (∀ tx ∈ batch, Owned executors partition tx) →
          RoutesToOwners executors partition digest sequence batch := by
  intro h
  obtain ⟨hroute, -⟩ := h twoExecutors twoPartition [7] 0 [deposit] owned_deposit
  rw [routeExecution_eq [7] 0 owned_deposit] at hroute
  exact absurd (Except.ok.inj hroute) (by decide)

end Sample

end DagBft.Writeback
