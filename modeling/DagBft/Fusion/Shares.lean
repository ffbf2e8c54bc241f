/-
  The shares of the executors under the new scheduler (`worker/src/batch_executor.rs`).

  The cap is computed with doubles. `maxAllowed_eq`: for batches of fewer than `2 ^ 50`
  transactions it is the exact `ceil(1.5 * m / n)`, and a batch that comes to an executor in a
  frame of the network has fewer (`InFrame.length_lt`). A batch of transactions that parse is
  scheduled as a whole (`parseAndSchedule_ok` in `Agreement`), within the cap
  (`scheduleDynamic_le` in `Loads`), and a transaction leaves the owner of its accounts only
  if that has its full share (`scheduleDynamic_owner`).
-/
import DagBft.Fusion.Loads

namespace DagBft.Fusion

open Worker

/-! ## The cap -/

/-- The exact cap, `ceil(1.5 * m / n)`. -/
def exactShare (m n : ℕ) : ℕ := (⌈(3 * m : ℚ) / (2 * n)⌉).toNat

theorem le_exactShare (m n : ℕ) : (3 * m : ℚ) / (2 * n) ≤ exactShare m n := by
  unfold exactShare
  refine (Int.le_ceil _).trans ?_
  exact_mod_cast Int.self_le_toNat _

/-- The rational number is at most the cap, by a multiple of its denominator. -/
theorem exactShare_cases (m : ℕ) {n : ℕ} (hn : 0 < n) :
    (3 * m : ℚ) / (2 * n) = exactShare m n ∨
      (3 * m : ℚ) / (2 * n) + 1 / (2 * n) ≤ exactShare m n := by
  have hn0 : (0 : ℚ) < 2 * n := by positivity
  have hle := le_exactShare m n
  rw [div_le_iff₀ hn0] at hle
  have hle' : 3 * m ≤ exactShare m n * (2 * n) := by exact_mod_cast hle
  rcases hle'.eq_or_lt with heq | hlt
  · refine Or.inl ((div_eq_iff hn0.ne').mpr ?_)
    exact_mod_cast heq
  · refine Or.inr ?_
    rw [← add_div, div_le_iff₀ hn0]
    exact_mod_cast hlt

theorem exactShare_lt (m : ℕ) {n : ℕ} (hn : 0 < n) (hm : 0 < m) :
    (exactShare m n : ℚ) + 1 / (2 * n) ≤ (3 * m : ℚ) / (2 * n) + 1 := by
  have hn0 : (0 : ℚ) < 2 * n := by positivity
  have hpos : (0 : ℚ) < (3 * m : ℚ) / (2 * n) := by positivity
  have hceil : (exactShare m n : ℤ) = ⌈(3 * m : ℚ) / (2 * n)⌉ :=
    Int.toNat_of_nonneg (Int.ceil_pos.mpr hpos).le
  have hlt : (exactShare m n : ℚ) < (3 * m : ℚ) / (2 * n) + 1 := by
    have h := Int.ceil_lt_add_one ((3 * m : ℚ) / (2 * n))
    rw [← hceil] at h
    exact_mod_cast h
  rw [div_add_one hn0.ne', lt_div_iff₀ hn0] at hlt
  rw [div_add_one hn0.ne', le_div_iff₀ hn0, add_mul, div_mul_cancel₀ _ hn0.ne']
  have hlt' : exactShare m n * (2 * n) < 3 * m + 2 * n := by exact_mod_cast hlt
  exact_mod_cast hlt'

theorem maxAllowed_eq {m n : ℕ} (hm : m < 2 ^ 50) (hn : 0 < n) (hn32 : n < 2 ^ 32) :
    maxAllowed m n = exactShare m n := by
  rcases Nat.eq_zero_or_pos m with rfl | hm0
  · unfold maxAllowed exactShare
    simp [Double.round_zero]
  have hn0 : (0 : ℚ) < 2 * n := by positivity
  have hm1 : (1 : ℚ) ≤ m := by exact_mod_cast hm0
  have hn2 : (n : ℚ) < 2 ^ 32 := by exact_mod_cast hn32
  have hm2 : (m : ℚ) < 2 ^ 50 := by exact_mod_cast hm
  have hroundm : Double.round m = m := Double.round_natCast (by omega)
  have hroundn : Double.round n = n := Double.round_natCast (by omega)
  -- the exact value, the distance of two such values, and the two roundings
  obtain ⟨z, hz⟩ : ∃ z : ℚ, z = (3 * m : ℚ) / (2 * n) := ⟨_, rfl⟩
  obtain ⟨d, hd⟩ : ∃ d : ℚ, d = 1 / (2 * n) := ⟨_, rfl⟩
  have hshare : (m : ℚ) / n = 2 * z / 3 := by
    rw [hz]
    field_simp
  have hd0 : 0 < d := by
    rw [hd]
    positivity
  have hzd : z = 3 * m * d := by
    rw [hz, hd]
    ring
  have hd34 : 1 / 2 ^ 33 < d := by
    rw [hd, one_div_lt_one_div (by positivity) hn0]
    linarith
  have hd1 : d ≤ 1 / 2 := by
    rw [hd, one_div_le_one_div hn0 (by norm_num)]
    have : (1 : ℚ) ≤ n := by exact_mod_cast hn
    linarith
  have hz0 : 3 * d ≤ z := by
    rw [hzd]
    nlinarith
  have hzd' : z < 2 ^ 52 * d := by
    rw [hzd]
    nlinarith
  have hzm : z ≤ 3 / 2 * m := by
    rw [hzd]
    nlinarith
  have hcases := exactShare_cases m hn
  have hlt := exactShare_lt m hn hm0
  rw [← hz, ← hd] at hcases hlt
  obtain ⟨hx, hx'⟩ := Double.round_bounds (normal_of_le (x := 2 * z / 3) (by linarith))
  obtain ⟨hy, -⟩ := Double.round_bounds
    (normal_of_le (x := Double.round (2 * z / 3) * (3 / 2)) (by linarith))
  have hup : Double.round (Double.round (2 * z / 3) * (3 / 2)) ≤ exactShare m n := by
    have hsharelt : exactShare m n < 2 ^ 51 := by
      have hlt' : (exactShare m n : ℚ) < 2 ^ 51 := by linarith
      exact_mod_cast hlt'
    rcases hcases with heq | hle
    · rw [heq]
      refine Double.round_thirds_le ?_ hsharelt
      have : (0 : ℚ) < exactShare m n := heq ▸ (by linarith : 0 < z)
      exact_mod_cast this
    · exact Double.round_le_natCast (by omega) (by linarith) (by linarith)
  have hlow : (exactShare m n : ℚ) - 1 < Double.round (Double.round (2 * z / 3) * (3 / 2)) := by
    linarith
  have hceil : ⌈Double.round (Double.round (2 * z / 3) * (3 / 2))⌉ = (exactShare m n : ℤ) := by
    rw [Int.ceil_eq_iff]
    exact ⟨by exact_mod_cast hlow, by exact_mod_cast hup⟩
  unfold maxAllowed
  rw [hroundm, hroundn, hshare]
  dsimp only
  rw [hceil, Int.toNat_natCast]

/-! ## Transactions whose accounts have one owner -/

variable {partition localUpdates : Partition} {owner : ℕ}

/-- The owner of an account after the moves of the batch so far. -/
def currentOwner (partition localUpdates : Partition) : Partition :=
  fun a => (localUpdates a).or (partition a)

theorem currentOwner_move (accounts : List ℕ) (target : ℕ) :
    currentOwner partition (fun a => if a ∈ accounts then some target else localUpdates a) =
      (currentOwner partition localUpdates).move accounts target := by
  funext a
  unfold currentOwner Partition.move
  by_cases ha : a ∈ accounts
  · simp only [ha, if_true, Option.some_or]
  · simp only [ha, if_false]

theorem addVote_ne_nil (votes : List (ℕ × ℕ)) (owner : ℕ) : addVote votes owner ≠ [] := by
  cases votes with
  | nil => exact List.cons_ne_nil _ _
  | cons x votes =>
      unfold addVote
      split
      · exact List.cons_ne_nil _ _
      · exact List.cons_ne_nil _ _

/-- All votes are for the one owner. -/
theorem countVotes_owner {accounts : List ℕ} {votes votes' : List (ℕ × ℕ)}
    (h : countVotes partition localUpdates accounts votes = .ok votes')
    (howner : ∀ a ∈ accounts, currentOwner partition localUpdates a = some owner)
    (hvotes : ∀ x ∈ votes, x.1 = owner) :
    (∀ x ∈ votes', x.1 = owner) ∧ (accounts ≠ [] ∨ votes ≠ [] → votes' ≠ []) := by
  induction accounts generalizing votes with
  | nil =>
      obtain rfl := Except.ok.inj h
      exact ⟨hvotes, fun hne => hne.resolve_left fun hn => hn rfl⟩
  | cons account accounts ih =>
      rw [List.forall_mem_cons] at howner
      have hhead := howner.1
      unfold currentOwner at hhead
      unfold countVotes at h
      rw [hhead] at h
      have hnext : ∀ x ∈ addVote votes owner, x.1 = owner :=
        fun x hx => (mem_addVote hx).elim id (hvotes x)
      obtain ⟨hall, hne⟩ := ih h howner.2 hnext
      exact ⟨hall, fun _ => hne (Or.inr (addVote_ne_nil _ _))⟩

/-- The owner is taken, unless it has its full share. -/
theorem bestExecutor_owner {bound : ℕ} {loads : List ℕ} {votes : List (ℕ × ℕ)} {best : Option ℕ}
    (h : bestExecutor bound loads votes = .ok best) (hall : ∀ x ∈ votes, x.1 = owner)
    (hne : votes ≠ []) (hlt : loads.getD owner 0 < bound) : best = some owner := by
  obtain ⟨-, rfl⟩ := bestExecutor_eq_ok.mp h
  have hbest := best_foldl (fun e => loads.getD e 0) bound votes none
  cases hr : votes.foldl (stepVote bound fun e => loads.getD e 0) none with
  | none =>
      obtain ⟨x, hx⟩ := List.exists_mem_of_ne_nil votes hne
      have hle := (hbest.none hr).2 x hx
      rw [hall x hx] at hle
      omega
  | some b =>
      obtain ⟨hmem, -⟩ := (hbest.mem b hr).resolve_left (by simp)
      rw [Option.map_some, ← hall _ hmem]

variable {iter : Iteration} {bound i : ℕ} {loads : List ℕ} {transactions : List Bytes}
  {txs : List Scheduled}

theorem loadIn_take_succ (tx : Scheduled) (txs : List Scheduled) (j e : ℕ) :
    loadIn ((tx :: txs).take (j + 1)) e = loadIn (txs.take j) e + if tx.target = e then 1 else 0 :=
  loadIn_cons tx (txs.take j) e

/-- A transaction whose accounts all have one owner, after the moves so far, stays there or
    that owner has its full share. -/
theorem scheduleDynamic_owner
    (h : scheduleDynamic iter bound partition i localUpdates loads transactions = .ok txs)
    {j : ℕ} {tx : Scheduled} (hj : txs[j]? = some tx)
    (hne : tx.requiredAccounts ≠ [])
    (howner : ∀ a ∈ tx.requiredAccounts,
      (currentOwner partition localUpdates).movedBy (txs.take j) a = some owner) :
    tx.target = owner ∨ bound ≤ loads.getD owner 0 + loadIn (txs.take j) owner := by
  induction transactions generalizing i localUpdates loads txs j with
  | nil =>
      unfold scheduleDynamic at h
      obtain rfl := Except.ok.inj h
      cases hj
  | cons txBytes transactions ih =>
      rcases scheduleDynamic_cons h with ⟨-, hrest⟩ | ⟨header, requiredAccounts, votes, best,
        target, rest, -, -, hvotes, hbest, htarget, hlt, hrest, rfl⟩
      · exact ih hrest hj howner
      · cases j with
        | zero =>
            obtain rfl := Option.some.inj hj
            by_cases hfull : bound ≤ loads.getD owner 0
            · exact Or.inr (by rw [List.take_zero]; exact hfull)
            · obtain ⟨hall, hne'⟩ := countVotes_owner hvotes howner (by simp)
              have hperm := iter.votes_perm i votes
              have hsome := bestExecutor_owner hbest
                (fun x hx => hall x (hperm.mem_iff.mp hx))
                (fun hnil => hne' (Or.inl hne) (hnil ▸ hperm.symm).eq_nil)
                (Nat.not_le.mp hfull)
              refine Or.inl ?_
              rcases htarget with ht | ⟨ht, -⟩
              · exact Option.some.inj (ht.symm.trans hsome)
              · rw [ht] at hsome
                cases hsome
        | succ j =>
            have hstep := ih hrest hj fun a ha => by
              rw [currentOwner_move]
              exact howner a ha
            refine hstep.imp_right fun hle => ?_
            rw [getD_set_succ hlt] at hle
            rw [loadIn_take_succ]
            dsimp only
            omega

/-! ## The schedule of a batch -/

variable {cfg : Settings}

theorem parseAndSchedule_new (hnew : cfg.useNewScheduler = true)
    (h : parseAndScheduleBatchTransactions cfg iter partition transactions = .ok txs) :
    scheduleDynamic iter (maxAllowed transactions.length cfg.numExecutors) partition 0
      (fun _ => none) (List.replicate cfg.numExecutors 0) transactions = .ok txs := by
  unfold parseAndScheduleBatchTransactions at h
  rwa [if_pos hnew] at h

theorem getD_replicate_zero (n e : ℕ) : (List.replicate n 0).getD e 0 = 0 := by
  rw [List.getD_eq_getElem?_getD, List.getElem?_replicate]
  split <;> rfl

/-- A transaction of the schedule stays with the one owner of its accounts, or that has its
    full share. -/
theorem parseAndSchedule_owner (hnew : cfg.useNewScheduler = true)
    (h : parseAndScheduleBatchTransactions cfg iter partition transactions = .ok txs)
    {j : ℕ} {tx : Scheduled} (hj : txs[j]? = some tx) (hne : tx.requiredAccounts ≠ [])
    (howner : ∀ a ∈ tx.requiredAccounts, partition.movedBy (txs.take j) a = some owner) :
    tx.target = owner ∨
      maxAllowed transactions.length cfg.numExecutors ≤ loadIn (txs.take j) owner := by
  have hstay := scheduleDynamic_owner (parseAndSchedule_new hnew h) hj hne howner
  rwa [getD_replicate_zero, Nat.zero_add] at hstay

/-! ## Batches that can be received -/

/-- The largest frame that `LengthDelimitedCodec::new()` reads or writes, in bytes. -/
def maxFrameLength : ℕ := 8 * 1024 * 1024

/-- What the transactions take up in an `Execute` message: bincode writes the length of each,
    in 8 bytes, before its bytes. -/
def serializedLength (transactions : List Bytes) : ℕ :=
  (transactions.map fun txBytes => 8 + txBytes.length).sum

/-- The `Router` sends the batch as one message, and `ExecutorReceiverHandler` receives it as
    one frame. -/
def InFrame (transactions : List Bytes) : Prop := serializedLength transactions ≤ maxFrameLength

instance (transactions : List Bytes) : Decidable (InFrame transactions) :=
  inferInstanceAs (Decidable (_ ≤ _))

theorem length_le_serializedLength (transactions : List Bytes) :
    transactions.length ≤ serializedLength transactions := by
  induction transactions with
  | nil => exact le_rfl
  | cons txBytes transactions ih =>
      unfold serializedLength at ih ⊢
      rw [List.length_cons, List.map_cons, List.sum_cons]
      omega

theorem InFrame.length_lt (h : InFrame transactions) : transactions.length < 2 ^ 50 := by
  have hle := (length_le_serializedLength transactions).trans h
  unfold maxFrameLength at hle
  omega

/-- The new scheduler assigns every transaction of a batch to one executor, none of them gets
    more than its share, and a transaction stays with the owner of its accounts unless that
    has its full share. -/
theorem schedule_shares (cfg : Settings) (iter : Iteration) (partition : Partition)
    (transactions : List Bytes) (hnew : cfg.useNewScheduler = true) (hn : 0 < cfg.numExecutors)
    (hn32 : cfg.numExecutors < 2 ^ 32) (howned : partition.Owned cfg.numExecutors)
    (hparses : ∀ txBytes ∈ transactions, Parses partition txBytes)
    (hframe : InFrame transactions) :
    ∃ txs, parseAndScheduleBatchTransactions cfg iter partition transactions = .ok txs ∧
      txs.map Scheduled.txBytes = transactions ∧
      (∀ tx ∈ txs, tx.target < cfg.numExecutors) ∧
      (∀ e, loadIn txs e ≤ exactShare transactions.length cfg.numExecutors) ∧
      ∀ (j : ℕ) (tx : Scheduled) (owner : ℕ), txs[j]? = some tx →
        (∀ a ∈ tx.requiredAccounts, partition.movedBy (txs.take j) a = some owner) →
        tx.target = owner ∨
          exactShare transactions.length cfg.numExecutors ≤ loadIn (txs.take j) owner := by
  obtain ⟨txs, hok, hmap, hgood⟩ := parseAndSchedule_ok cfg iter howned hparses
  have hlength : txs.length = transactions.length := by rw [← hmap, List.length_map]
  rw [← maxAllowed_eq hframe.length_lt hn hn32]
  refine ⟨txs, hok, hmap, fun tx htx => (hgood tx htx).target_lt, fun e => ?_,
    fun j tx owner hj howner => ?_⟩
  · have hle := scheduleDynamic_le List.length_replicate (parseAndSchedule_new hnew hok)
      (fun e' => (getD_replicate_zero _ e').trans_le (Nat.zero_le _))
      (by
        rw [List.sum_replicate, nsmul_zero, Nat.zero_add, hlength]
        exact le_mul_maxAllowed _ hn hn32) e
    rwa [getD_replicate_zero, Nat.zero_add] at hle
  · refine parseAndSchedule_owner hnew hok hj ?_ howner
    obtain ⟨sbTx, -, hreq⟩ := (hgood tx (List.mem_of_getElem? hj)).required
    rw [hreq]
    exact requiredAccounts_ne_nil sbTx

namespace ShareSample

def settings : Settings := ⟨2, true, fun _ => none⟩

/-- Account 0 is with executor 1. -/
def owners : Partition := fun a => if a = 0 then some 1 else none

/-- The balance of account 0. -/
def balance : Bytes := List.replicate 35 0

theorem owned_owners : owners.Owned settings.numExecutors := by
  intro a e he
  unfold owners at he
  split at he
  · rw [← Option.some.inj he]
    exact Nat.one_lt_two
  · cases he

theorem parses_balance : Parses owners balance :=
  ⟨⟨.balance, 0, 0, .finite 0⟩, by decide +kernel, by decide⟩

end ShareSample

open ShareSample

theorem schedule_shares_sample :
    ∃ txs, parseAndScheduleBatchTransactions settings default owners [balance, balance] =
        .ok txs ∧
      txs.map Scheduled.txBytes = [balance, balance] ∧
      (∀ tx ∈ txs, tx.target < 2) ∧ (∀ e, loadIn txs e ≤ exactShare 2 2) ∧
      ∀ (j : ℕ) (tx : Scheduled) (owner : ℕ), txs[j]? = some tx →
        (∀ a ∈ tx.requiredAccounts, owners.movedBy (txs.take j) a = some owner) →
        tx.target = owner ∨ exactShare 2 2 ≤ loadIn (txs.take j) owner :=
  schedule_shares settings default owners [balance, balance] rfl (by decide) (by decide)
    owned_owners (by
      intro txBytes h
      rw [List.eq_of_mem_replicate (n := 2) h]
      exact parses_balance) (by decide)

end DagBft.Fusion
